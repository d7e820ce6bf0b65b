import UCore.Lib.Extent
import UCore.Lib.Transition
import UCore.Mm.Page

/-!
Contract: the `struct pmm_manager` interface of `kern/mm/pmm.h` and the runs of a kernel over
one manager.

Owns:
- the operations of a manager that the kernel calls through the interface;
- the bookkeeping of a run: the ranges handed to `init_memmap` and the allocations returned
  and not yet freed;
- the requests a kernel may make in a state, and the step relation they induce.

A manager may grant more pages than asked for; `granted n` is the size of the block it hands
out for a request of `n` pages, and the size the kernel later frees it with.

Does not own: any particular manager.
-/

set_option autoImplicit false

namespace UCore.Mm

open UCore.Lib

/-- The operations of a `struct pmm_manager`. The first argument bounds loop iterations, and
more of it never changes an answer. -/
structure PmmManager (ι : Type) where
  initMemmap : Nat → Pmm ι → Nat → Nat → Except Stop (Pmm ι)
  allocPages : Nat → Pmm ι → Nat → Except Stop (Option Nat × Pmm ι)
  freePages : Nat → Pmm ι → Nat → Nat → Except Stop (Pmm ι)
  nrFreePages : Pmm ι → Nat
  initMemmap_mono : ∀ {fuel fuel' pmm base n result}, initMemmap fuel pmm base n = .ok result →
    fuel ≤ fuel' → initMemmap fuel' pmm base n = .ok result
  allocPages_mono : ∀ {fuel fuel' pmm n result}, allocPages fuel pmm n = .ok result →
    fuel ≤ fuel' → allocPages fuel' pmm n = .ok result
  freePages_mono : ∀ {fuel fuel' pmm base n result}, freePages fuel pmm base n = .ok result →
    fuel ≤ fuel' → freePages fuel' pmm base n = .ok result

/-- A manager's state together with what the kernel has done so far: the ranges it handed to
`init_memmap`, and the blocks it holds. -/
structure System (ι : Type) where
  pmm : Pmm ι
  managed : List Extent
  live : List Extent

inductive Request
  | initMemmap (base n : Nat)
  | allocPages (n : Nat)
  | freePages (base n : Nat)
deriving DecidableEq, Repr

namespace System

variable {ι : Type}

/-- The requests the kernel may make: fresh ranges, positive sizes, and blocks it holds. -/
def Admits (system : System ι) : Request → Prop
  | .initMemmap base n => 0 < n ∧ ∀ range ∈ system.managed, Extent.Disjoint ⟨base, n⟩ range
  | .allocPages n => 0 < n
  | .freePages base n => ⟨base, n⟩ ∈ system.live

instance (system : System ι) (request : Request) : Decidable (system.Admits request) :=
  match request with
  | .initMemmap _ _ => inferInstanceAs (Decidable (_ ∧ _))
  | .allocPages _ => inferInstanceAs (Decidable (_ < _))
  | .freePages _ _ => inferInstanceAs (Decidable (_ ∈ _))

/-- The manager answers an admitted request. -/
inductive Step (manager : PmmManager ι) (granted : Nat → Nat) :
    System ι → Request → System ι → Prop
  | initMemmap {system : System ι} {base n : Nat} {pmm : Pmm ι}
      (admitted : system.Admits (.initMemmap base n))
      (returns : Returns (fun fuel => manager.initMemmap fuel system.pmm base n) pmm) :
      Step manager granted system (.initMemmap base n)
        ⟨pmm, ⟨base, n⟩ :: system.managed, system.live⟩
  | allocNull {system : System ι} {n : Nat} {pmm : Pmm ι}
      (admitted : system.Admits (.allocPages n))
      (returns : Returns (fun fuel => manager.allocPages fuel system.pmm n) (none, pmm)) :
      Step manager granted system (.allocPages n) ⟨pmm, system.managed, system.live⟩
  | allocPage {system : System ι} {n page : Nat} {pmm : Pmm ι}
      (admitted : system.Admits (.allocPages n))
      (returns : Returns (fun fuel => manager.allocPages fuel system.pmm n) (some page, pmm)) :
      Step manager granted system (.allocPages n)
        ⟨pmm, system.managed, ⟨page, granted n⟩ :: system.live⟩
  | freePages {system : System ι} {base n : Nat} {pmm : Pmm ι}
      (admitted : system.Admits (.freePages base n))
      (returns : Returns (fun fuel => manager.freePages fuel system.pmm base n) pmm) :
      Step manager granted system (.freePages base n)
        ⟨pmm, system.managed, system.live.erase ⟨base, n⟩⟩

theorem Step.admits {manager : PmmManager ι} {granted : Nat → Nat} {system next : System ι}
    {request : Request} (step : Step manager granted system request next) :
    system.Admits request := by
  cases step with
  | initMemmap admitted _ => exact admitted
  | allocNull admitted _ => exact admitted
  | allocPage admitted _ => exact admitted
  | freePages admitted _ => exact admitted

/-- A manager has one answer to a request. -/
theorem Step.unique {manager : PmmManager ι} {granted : Nat → Nat} {system left right : System ι}
    {request : Request} (first : Step manager granted system request left)
    (second : Step manager granted system request right) : left = right := by
  cases first with
  | initMemmap _ returns =>
      cases second with
      | initMemmap _ returns' => rw [returns.unique returns']
  | allocNull _ returns =>
      cases second with
      | allocNull _ returns' => rw [(Prod.mk.inj (returns.unique returns')).2]
      | allocPage _ returns' => cases (Prod.mk.inj (returns.unique returns')).1
  | allocPage _ returns =>
      cases second with
      | allocNull _ returns' => cases (Prod.mk.inj (returns.unique returns')).1
      | allocPage _ returns' =>
          obtain ⟨samePage, samePmm⟩ := Prod.mk.inj (returns.unique returns')
          rw [Option.some.inj samePage, samePmm]
  | freePages _ returns =>
      cases second with
      | freePages _ returns' => rw [returns.unique returns']

/-- A step whose request meets a condition on the state before it. -/
def StepMeeting (manager : PmmManager ι) (granted : Nat → Nat)
    (meets : System ι → Request → Prop) (before : System ι) (request : Request)
    (after : System ι) : Prop :=
  Step manager granted before request after ∧ meets before request

/-! ## Executing a list of requests -/

/-- The answer to one admitted request, with a given fuel. -/
def answer (manager : PmmManager ι) (granted : Nat → Nat) (fuel : Nat) (system : System ι) :
    Request → Except Stop (System ι)
  | .initMemmap base n => do
      let pmm ← manager.initMemmap fuel system.pmm base n
      pure ⟨pmm, ⟨base, n⟩ :: system.managed, system.live⟩
  | .allocPages n => do
      match ← manager.allocPages fuel system.pmm n with
      | (none, pmm) => pure ⟨pmm, system.managed, system.live⟩
      | (some page, pmm) => pure ⟨pmm, system.managed, ⟨page, granted n⟩ :: system.live⟩
  | .freePages base n => do
      let pmm ← manager.freePages fuel system.pmm base n
      pure ⟨pmm, system.managed, system.live.erase ⟨base, n⟩⟩

/-- The answers to a list of requests, or `none` when one is not admitted, does not meet the
side condition `meets`, or is not answered. -/
def exec (manager : PmmManager ι) (granted : Nat → Nat) (meets : System ι → Request → Prop)
    [DecidableRel meets] (fuel : Nat) : System ι → List Request → Option (System ι)
  | system, [] => some system
  | system, request :: requests =>
      if system.Admits request ∧ meets system request then
        match answer manager granted fuel system request with
        | .ok next => exec manager granted meets fuel next requests
        | .error _ => none
      else none

theorem answer_step {manager : PmmManager ι} {granted : Nat → Nat} {fuel : Nat}
    {system next : System ι} {request : Request} (admitted : system.Admits request)
    (answered : answer manager granted fuel system request = .ok next) :
    Step manager granted system request next := by
  cases request with
  | initMemmap base n =>
      cases run : manager.initMemmap fuel system.pmm base n with
      | error stop => simp [answer, run, bind, Except.bind] at answered
      | ok pmm =>
          simp only [answer, run, bind, Except.bind, pure, Except.pure, Except.ok.injEq] at answered
          subst answered
          exact .initMemmap admitted ⟨fuel, fun _ more => manager.initMemmap_mono run more⟩
  | allocPages n =>
      cases run : manager.allocPages fuel system.pmm n with
      | error stop => simp [answer, run, bind, Except.bind] at answered
      | ok result =>
          obtain ⟨page, pmm⟩ := result
          cases page with
          | none =>
              simp only [answer, run, bind, Except.bind, pure, Except.pure,
                Except.ok.injEq] at answered
              subst answered
              exact .allocNull admitted ⟨fuel, fun _ more => manager.allocPages_mono run more⟩
          | some page =>
              simp only [answer, run, bind, Except.bind, pure, Except.pure,
                Except.ok.injEq] at answered
              subst answered
              exact .allocPage admitted ⟨fuel, fun _ more => manager.allocPages_mono run more⟩
  | freePages base n =>
      cases run : manager.freePages fuel system.pmm base n with
      | error stop => simp [answer, run, bind, Except.bind] at answered
      | ok pmm =>
          simp only [answer, run, bind, Except.bind, pure, Except.pure, Except.ok.injEq] at answered
          subst answered
          exact .freePages admitted ⟨fuel, fun _ more => manager.freePages_mono run more⟩

theorem exec_run {manager : PmmManager ι} {granted : Nat → Nat}
    {meets : System ι → Request → Prop} [DecidableRel meets] {fuel : Nat}
    {system last : System ι} {requests : List Request}
    (done : exec manager granted meets fuel system requests = some last) :
    Run (StepMeeting manager granted meets) system requests last := by
  induction requests generalizing system with
  | nil =>
      rw [Option.some.inj done]
      exact .nil _
  | cons request requests inductionHypothesis =>
      unfold exec at done
      split_ifs at done with admitted
      cases answered : answer manager granted fuel system request with
      | error stop => simp [answered] at done
      | ok next =>
          rw [answered] at done
          exact .cons ⟨answer_step admitted.1 answered, admitted.2⟩ (inductionHypothesis done)

end System

end UCore.Mm
