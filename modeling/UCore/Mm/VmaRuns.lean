import Mathlib.Logic.Function.Basic
import UCore.Lib.Transition
import UCore.Mm.Vma

/-!
Contract: the areas of all processes over a whole run.

Owns:
- the runs of `mm_create`, `mm_map`, `dup_mmap`, `find_vma` and `mm_destroy`;
- that every list of areas in such a run is sound;
- exactly when `mm_map` returns, and that `dup_mmap` does.

Does not own: the functions themselves, which are in `Mm.Vma`.
-/

set_option autoImplicit false

namespace UCore.Mm

open UCore.Lib

/-- Every `mm_struct` there is, by a number that stands for its address. -/
abbrev Mms := Nat → Option CachedMm

/-- Every page fault and every check of user memory is some calls of `find_vma`. -/
inductive MmEvent
  | mmCreate (name : Nat)
  | mmMap (name addr len vmFlags : Nat) (memory : Bool)
  | dupMmap (target source : Nat) (memory copied : Vma → Bool)
  | findVma (name addr : Nat)
  | mmDestroy (name : Nat)

/-- `copy_mm` calls `dup_mmap` with an `mm` it has just made. -/
def Mms.Admits (mms : Mms) : MmEvent → Prop
  | .mmCreate name => (mms name).isNone
  | .mmMap name _ _ _ _ => (mms name).isSome
  | .dupMmap target source _ _ => (mms target).map (·.mmapList) = some [] ∧ (mms source).isSome
  | .findVma name _ => (mms name).isSome
  | .mmDestroy name => (mms name).isSome

instance (mms : Mms) (event : MmEvent) : Decidable (mms.Admits event) := by
  unfold Mms.Admits
  split <;> infer_instance

def Mms.answer (mms : Mms) : MmEvent → Except Stop Mms
  | .mmCreate name => .ok (Function.update mms name (some CachedMm.mmCreate))
  | .mmMap name addr len vmFlags memory =>
      match mms name with
      | some mm => do
          let (_, mm) ← Mm.mmMap mm addr len vmFlags memory
          pure (Function.update mms name (some mm))
      | none => .ok mms
  | .dupMmap target source memory copied =>
      match mms target, mms source with
      | some to', some mm => do
          let (_, to') ← Mm.dupMmap memory copied to' mm
          pure (Function.update mms target (some to'))
      | _, _ => .ok mms
  | .findVma name addr =>
      match mms name with
      | some mm => .ok (Function.update mms name (some (mm.findVma addr).2))
      | none => .ok mms
  | .mmDestroy name => .ok (Function.update mms name none)

def mmMachine : Machine Mms MmEvent Stop := ⟨Mms.Admits, Mms.answer⟩

instance : DecidableRel mmMachine.Admits :=
  fun mms event => inferInstanceAs (Decidable (mms.Admits event))

def noMms : Mms := fun _ => none

/-- Every `mm` is sound. -/
def MmsSound (mms : Mms) : Prop := ∀ name mm, mms name = some mm → MmSound mm

namespace MmsSound

variable {mms mms' : Mms} {name : Nat} {mm : CachedMm}

theorem update (sound : MmsSound mms) (new : MmSound mm) :
    MmsSound (Function.update mms name (some mm)) := by
  intro other mm' present
  by_cases same : other = name
  · subst same
    rw [Function.update_self] at present
    exact Option.some.inj present ▸ new
  · rw [Function.update_of_ne same] at present
    exact sound other mm' present

theorem step {event : MmEvent} (sound : MmsSound mms) (move : mmMachine.Step mms event mms') :
    MmsSound mms' := by
  obtain ⟨admitted, answered⟩ := move
  have answered : mms.answer event = .ok mms' := answered
  cases event with
  | mmCreate name =>
      obtain rfl := Except.ok.inj answered
      exact sound.update MmSound.mmCreate
  | mmMap name addr len vmFlags memory =>
      obtain ⟨mm, present⟩ := Option.isSome_iff_exists.mp admitted
      have before := sound name mm present
      unfold Mms.answer at answered
      simp only [present] at answered
      by_cases meets : MapMeets mm addr len memory
      · obtain ⟨ret, mm', returns, _, after⟩ := mmMap_returns before meets vmFlags
        rw [returns] at answered
        obtain rfl := Except.ok.inj answered
        exact sound.update after
      · rw [mmMap_stops before meets vmFlags] at answered
        cases answered
  | dupMmap target source memory copied =>
      obtain ⟨emptyTarget, hasSource⟩ := admitted
      obtain ⟨to', isTarget, empty⟩ := Option.map_eq_some_iff.mp emptyTarget
      obtain ⟨mm, isSource⟩ := Option.isSome_iff_exists.mp hasSource
      obtain ⟨done, target', returns, after, _⟩ := dupMmap_returns memory copied
        (sound source mm isSource) (sound target to' isTarget) empty
      unfold Mms.answer at answered
      simp only [isTarget, isSource] at answered
      rw [returns] at answered
      obtain rfl := Except.ok.inj answered
      exact sound.update after
  | findVma name addr =>
      obtain ⟨mm, present⟩ := Option.isSome_iff_exists.mp admitted
      unfold Mms.answer at answered
      simp only [present] at answered
      obtain rfl := Except.ok.inj answered
      exact sound.update ((sound name mm present).findVma addr)
  | mmDestroy name =>
      obtain rfl := Except.ok.inj answered
      intro other mm present
      by_cases same : other = name
      · subst same
        rw [Function.update_self] at present
        cases present
      · rw [Function.update_of_ne same] at present
        exact sound other mm present

theorem run {events : List MmEvent} (run : Run mmMachine.Step noMms events mms) : MmsSound mms :=
  run.invariant MmsSound (fun _ _ _ sound move => sound.step move) fun _ _ present =>
    (nomatch present)

end MmsSound

/-- Every list of areas is sound. `mm_map` returns, and does what it should, exactly where no area
starts behind the first page of the range without one that contains this page; and `dup_mmap` into
a new `mm` always does. -/
theorem mm_map_sound {events : List MmEvent} {mms : Mms} {name : Nat} {mm : CachedMm}
    (run : Run mmMachine.Step noMms events mms) (present : mms name = some mm) :
    VmasSound mm.mmapList ∧
      (∀ addr len vmFlags memory, (∃ ret mm', mmMap mm addr len vmFlags memory = .ok (ret, mm') ∧
          Mapped mm addr len vmFlags ret mm' ∧ VmasSound mm'.mmapList) ↔
        MapMeets mm addr len memory) ∧
      ∀ memory copied, ∃ done mm', dupMmap memory copied CachedMm.mmCreate mm = .ok (done, mm') ∧
        VmasSound mm'.mmapList ∧ (done = true → mm'.mmapList = mm.mmapList) := by
  have sound := MmsSound.run run name mm present
  refine ⟨sound.vmas, fun addr len vmFlags memory => ⟨fun ⟨ret, mm', returns, _⟩ => ?_,
    fun meets => ?_⟩, fun memory copied => ?_⟩
  · by_contra fails
    rw [mmMap_stops sound fails vmFlags] at returns
    cases returns
  · obtain ⟨ret, mm', returns, mapped, after⟩ := mmMap_returns sound meets vmFlags
    exact ⟨ret, mm', returns, mapped, after.vmas⟩
  · obtain ⟨done, mm', returns, after, rest, split, finished⟩ :=
      dupMmap_returns memory copied sound MmSound.mmCreate rfl
    refine ⟨done, mm', returns, after.vmas, fun isDone => ?_⟩
    rw [split, finished isDone, List.nil_append]

/-- One page of memory is mapped at 0x400000. -/
def onePage : List MmEvent := [.mmCreate 0, .mmMap 0 0x400000 0x1000 3 true]

def onePageMm : CachedMm := ⟨⟨[⟨0x400000, 0x401000, true, true, false⟩]⟩, none, 1⟩

theorem onePage_run : ∃ mms, Run mmMachine.Step noMms onePage mms ∧ mms 0 = some onePageMm := by
  have done : (follow (mmMachine.next fun _ _ => True) noMms onePage).any (fun mms =>
      decide (mms 0 = some onePageMm)) = true := by decide
  obtain ⟨mms, finished, found⟩ := (Option.any_eq_true _ _).mp done
  exact ⟨mms, Run.mono (fun _ _ _ move => move.1) (Machine.follow_next_run finished),
    of_decide_eq_true found⟩

/-- A range around that page stops the kernel. -/
theorem mm_map_around : ∃ mms mm, Run mmMachine.Step noMms onePage mms ∧ mms 0 = some mm ∧
    mmMap mm 0x3ff000 0x3000 3 true = .error .assertFailed := by
  obtain ⟨mms, run, present⟩ := onePage_run
  exact ⟨mms, onePageMm, run, present, by decide⟩

theorem mm_map_sound_beside : ∃ mms mm, Run mmMachine.Step noMms onePage mms ∧ mms 0 = some mm ∧
    ∃ ret mm', mmMap mm 0x401000 0x1800 1 true = .ok (ret, mm') ∧
      Mapped mm 0x401000 0x1800 1 ret mm' ∧ VmasSound mm'.mmapList := by
  obtain ⟨mms, run, present⟩ := onePage_run
  refine ⟨mms, onePageMm, run, present, ((mm_map_sound run present).2.1 _ _ _ _).mpr ?_⟩
  intro _ _
  right
  decide

end UCore.Mm
