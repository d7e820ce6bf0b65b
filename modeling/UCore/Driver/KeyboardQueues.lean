import UCore.Driver.Keyboard

/-!
Contract: the rings of the keyboard hold the characters that queues would hold.

Owns:
- the unread characters of both rings, and what every function does to them;
- when nothing is lost, and two runs that lose characters.

Does not own: the functions themselves.
-/

set_option autoImplicit false

namespace UCore.Driver

open UCore.Lib

variable {cons : Cons} {stdin : StdinDevice} {keyboard after : Keyboard} {queues : InputQueues}
  {typed : List UInt8} {c : UInt8} {reader : Nat}

/-! ## The ring of the console -/

structure Cons.Proper (cons : Cons) : Prop where
  rpos : cons.rpos < consbufsize
  wpos : cons.wpos < consbufsize

def Cons.count (cons : Cons) : Nat := (cons.wpos + consbufsize - cons.rpos) % consbufsize

def Cons.unread (cons : Cons) : List UInt8 := window consbufsize cons.buf cons.rpos cons.count

@[simp] theorem Cons.length_unread : cons.unread.length = cons.count := length_window

/-- What `cons_intr` does with a character. -/
def Cons.store (cons : Cons) (c : UInt8) : Cons :=
  { cons with
    buf := Function.update cons.buf cons.wpos c
    wpos := Cons.advance cons.wpos }

theorem Cons.advance_eq {pos : Nat} (proper : pos < consbufsize) :
    Cons.advance pos = (pos + 1) % consbufsize := by
  unfold Cons.advance consbufsize at *
  split_ifs <;> omega

theorem Cons.advance_lt {pos : Nat} (proper : pos < consbufsize) :
    Cons.advance pos < consbufsize := by
  rw [Cons.advance_eq proper]
  exact Nat.mod_lt _ (by decide)

/-- The next character goes behind the unread ones. -/
theorem Cons.Proper.wpos_eq (proper : cons.Proper) :
    cons.wpos = (cons.rpos + cons.count) % consbufsize := by
  have := proper.rpos
  have := proper.wpos
  unfold Cons.count consbufsize at *
  omega

theorem Cons.Proper.store (proper : cons.Proper) : (cons.store c).Proper :=
  ⟨proper.rpos, Cons.advance_lt proper.wpos⟩

theorem Cons.Proper.unread_store (proper : cons.Proper) (space : cons.count + 1 < consbufsize) :
    (cons.store c).unread = cons.unread ++ [c] := by
  have grown : (cons.store c).count = cons.count + 1 := by
    have := proper.rpos
    have := proper.wpos
    change (Cons.advance cons.wpos + consbufsize - cons.rpos) % consbufsize = _
    rw [Cons.advance_eq proper.wpos]
    unfold Cons.count consbufsize at *
    omega
  rw [Cons.unread, grown]
  change window consbufsize (Function.update cons.buf cons.wpos c) cons.rpos (cons.count + 1) = _
  rw [proper.wpos_eq]
  exact window_push (by omega)

theorem Cons.Proper.consIntr (proper : cons.Proper) : (consIntr typed cons).Proper := by
  induction typed generalizing cons with
  | nil => exact proper
  | cons c typed inductionHypothesis =>
      unfold Driver.consIntr
      split_ifs
      · exact inductionHypothesis (proper.store (c := c))
      · exact inductionHypothesis proper

/-- While the ring has space, `cons_intr` stores what arrives behind the unread characters. -/
theorem Cons.Proper.unread_consIntr (proper : cons.Proper)
    (space : cons.count + (characters typed).length < consbufsize) :
    (Driver.consIntr typed cons).unread = cons.unread ++ characters typed := by
  induction typed generalizing cons with
  | nil => rw [characters_nil, List.append_nil]; rfl
  | cons c typed inductionHypothesis =>
      unfold Driver.consIntr
      by_cases isChar : c ≠ 0
      · rw [characters_cons isChar, List.length_cons] at space
        have stored := @Cons.Proper.unread_store cons c proper (by omega)
        have grown : (cons.store c).count = cons.count + 1 := by
          rw [← Cons.length_unread, stored, List.length_append, Cons.length_unread]
          rfl
        have rest := @inductionHypothesis (cons.store c) proper.store (by omega)
        rw [if_pos isChar, characters_cons isChar, List.append_cons,
          ← stored]
        exact rest
      · obtain rfl := not_not.mp isChar
        rw [characters_nul] at space ⊢
        rw [if_neg isChar]
        exact inductionHypothesis proper space

/-- Taking the first character of the ring. -/
theorem Cons.Proper.take (proper : cons.Proper) (waiting : cons.rpos ≠ cons.wpos) :
    (Cons.Proper { cons with rpos := Cons.advance cons.rpos }) ∧
      cons.unread = cons.buf cons.rpos ::
        Cons.unread { cons with rpos := Cons.advance cons.rpos } := by
  refine ⟨⟨Cons.advance_lt proper.rpos, proper.wpos⟩, ?_⟩
  have isRpos := proper.rpos
  have isWpos := proper.wpos
  have one : cons.count = Cons.count { cons with rpos := Cons.advance cons.rpos } + 1 := by
    change cons.count = (cons.wpos + consbufsize - Cons.advance cons.rpos) % consbufsize + 1
    rw [Cons.advance_eq isRpos]
    unfold Cons.count consbufsize at *
    omega
  rw [Cons.unread, one, window_cons, Nat.mod_eq_of_lt isRpos]
  congr 1
  change _ = window consbufsize cons.buf (Cons.advance cons.rpos) _
  rw [Cons.advance_eq isRpos, window_mod]

theorem Cons.unread_nil (same : cons.rpos = cons.wpos) :
    cons.unread = [] := by
  have none : cons.count = 0 := by
    rw [Cons.count, same, Nat.add_sub_cancel_left, Nat.mod_self]
  rw [Cons.unread, none, window_zero]

/-- `cons_getc` takes the first unread character. -/
theorem Cons.Proper.consGetc (proper : cons.Proper) :
    let stored := serialIntr typed cons
    (Driver.consGetc typed cons).2.Proper ∧
      ((stored.unread = [] ∧ Driver.consGetc typed cons = (0, stored)) ∨
        stored.unread = (Driver.consGetc typed cons).1 :: (Driver.consGetc typed cons).2.unread) := by
  intro stored
  have kept : stored.Proper := proper.consIntr
  have run : Driver.consGetc typed cons = if stored.rpos ≠ stored.wpos then
      (stored.buf stored.rpos, { stored with rpos := Cons.advance stored.rpos })
    else (0, stored) := rfl
  rw [run]
  split_ifs with waiting
  · exact ⟨(kept.take waiting).1, Or.inr (kept.take waiting).2⟩
  · exact ⟨kept, Or.inl ⟨Cons.unread_nil (not_not.mp waiting), rfl⟩⟩

/-! ## The ring of the device -/

structure StdinDevice.Proper (stdin : StdinDevice) : Prop where
  ordered : stdin.rpos ≤ stdin.wpos
  bounded : stdin.wpos - stdin.rpos ≤ stdinBufsize

def StdinDevice.unread (stdin : StdinDevice) : List UInt8 :=
  window stdinBufsize stdin.buffer stdin.rpos (stdin.wpos - stdin.rpos)

@[simp] theorem StdinDevice.length_unread : stdin.unread.length = stdin.wpos - stdin.rpos :=
  length_window

/-- The device after `dev_stdin_write` stored a character. -/
def StdinDevice.store (stdin : StdinDevice) (c : UInt8) : StdinDevice where
  buffer := Function.update stdin.buffer (stdin.wpos % stdinBufsize) c
  rpos := stdin.rpos
  wpos := if stdin.wpos - stdin.rpos < stdinBufsize then stdin.wpos + 1 else stdin.wpos
  waitQueue := []

theorem StdinDevice.Proper.store (proper : stdin.Proper) : (stdin.store c).Proper := by
  obtain ⟨ordered, bounded⟩ := proper
  unfold StdinDevice.store
  constructor <;> dsimp only <;> split_ifs <;> omega

theorem StdinDevice.Proper.unread_store (proper : stdin.Proper)
    (space : stdin.wpos - stdin.rpos < stdinBufsize) :
    (stdin.store c).unread = stdin.unread ++ [c] := by
  have ordered := proper.ordered
  rw [StdinDevice.unread, StdinDevice.store, if_pos space]
  change window stdinBufsize _ stdin.rpos (stdin.wpos + 1 - stdin.rpos) = _
  have slot : stdin.wpos = stdin.rpos + (stdin.wpos - stdin.rpos) := by omega
  have grown : stdin.wpos + 1 - stdin.rpos = stdin.wpos - stdin.rpos + 1 := by omega
  rw [grown]
  nth_rewrite 1 [slot]
  exact window_push space

/-- A character that comes to a full ring replaces the oldest one. -/
theorem StdinDevice.Proper.unread_store_full (proper : stdin.Proper)
    (full : ¬ stdin.wpos - stdin.rpos < stdinBufsize) :
    stdin.unread = stdin.buffer (stdin.rpos % stdinBufsize) :: stdin.unread.tail ∧
      (stdin.store c).unread = c :: stdin.unread.tail := by
  have ordered := proper.ordered
  have bounded := proper.bounded
  have exact' : stdin.wpos - stdin.rpos = 4095 + 1 := by
    unfold stdinBufsize at full bounded
    omega
  have slot : stdin.wpos = stdin.rpos + (4095 + 1) := by omega
  have before : stdin.unread = stdin.buffer (stdin.rpos % stdinBufsize) ::
      window stdinBufsize stdin.buffer (stdin.rpos + 1) 4095 := by
    rw [StdinDevice.unread, exact', window_cons]
  have after : (stdin.store c).unread =
      c :: window stdinBufsize stdin.buffer (stdin.rpos + 1) 4095 := by
    rw [StdinDevice.unread, StdinDevice.store, if_neg full]
    change window (4095 + 1) (Function.update stdin.buffer (stdin.wpos % (4095 + 1)) c) stdin.rpos
      (stdin.wpos - stdin.rpos) = _
    rw [exact', slot]
    exact window_push_full
  refine ⟨?_, ?_⟩
  · rw [before, List.tail_cons]
  · rw [after, before, List.tail_cons]

/-! ## Readers -/

/-- The characters that a reader received. -/
def Keyboard.to (keyboard : Keyboard) (reader : Nat) : List UInt8 :=
  (keyboard.delivered.filter (·.1 = reader)).map Prod.snd

/-- The rings hold the queues, and every call stored the last characters that its reader
received. -/
structure Holds (keyboard : Keyboard) (queues : InputQueues) : Prop where
  cons : keyboard.cons.Proper
  stdin : keyboard.stdin.Proper
  consUnread : keyboard.cons.unread = queues.cons
  stdinUnread : keyboard.stdin.unread = queues.stdin
  delivered : keyboard.delivered.map Prod.snd = queues.delivered
  stored : ∀ reader, (keyboard.reads reader).stored <:+ keyboard.to reader

/-- The queues after a reader took `count` characters. -/
def InputQueues.taken (queues : InputQueues) (count : Nat) : InputQueues :=
  { queues with
    stdin := queues.stdin.drop count
    delivered := queues.delivered ++ queues.stdin.take count }

theorem InputQueues.taken_succ {rest : List UInt8} {count : Nat}
    (first : queues.stdin = c :: rest) :
    queues.taken (count + 1) =
      InputQueues.taken { queues with stdin := rest, delivered := queues.delivered ++ [c] } count := by
  rw [InputQueues.taken, InputQueues.taken, first, List.drop_succ_cons, List.take_succ_cons,
    List.append_cons]

theorem InputQueues.taken_zero : queues.taken 0 = queues := by
  rw [InputQueues.taken, List.drop_zero, List.take_zero, List.append_nil]

/-- The state with another call of a reader. -/
def Keyboard.setCall (keyboard : Keyboard) (reader : Nat) (call : ReadCall) : Keyboard :=
  { keyboard with reads := Function.update keyboard.reads reader call }

theorem Holds.setCall {call call' : ReadCall} (holds : Holds (keyboard.setCall reader call) queues)
    (same : call'.stored = call.stored) : Holds (keyboard.setCall reader call') queues := by
  refine ⟨holds.cons, holds.stdin, holds.consUnread, holds.stdinUnread, holds.delivered, ?_⟩
  intro other
  have stored := holds.stored other
  by_cases here : other = reader
  · subst here
    simp only [Keyboard.setCall, Function.update_self] at stored ⊢
    rwa [same]
  · simp only [Keyboard.setCall, Function.update_of_ne here] at stored ⊢
    exact stored

/-- Another wait queue. -/
theorem Holds.setQueue {waitQueue : List Nat} (holds : Holds keyboard queues) :
    Holds { keyboard with stdin := { keyboard.stdin with waitQueue := waitQueue } } queues where
  cons := holds.cons
  stdin := ⟨holds.stdin.ordered, holds.stdin.bounded⟩
  consUnread := holds.consUnread
  stdinUnread := holds.stdinUnread
  delivered := holds.delivered
  stored := holds.stored

/-- A reader receives a character. -/
theorem Holds.deliver {buf rest : List UInt8}
    (holds : Holds (keyboard.setCall reader (.returned buf)) queues)
    (first : queues.stdin = c :: rest)
    (waiting : keyboard.stdin.rpos < keyboard.stdin.wpos) :
    Holds (Keyboard.setCall { keyboard with
        stdin := { keyboard.stdin with rpos := keyboard.stdin.rpos + 1 }
        delivered := keyboard.delivered ++ [(reader, c)] } reader (.returned (buf ++ [c])))
      { queues with stdin := rest, delivered := queues.delivered ++ [c] } := by
  have bounded : keyboard.stdin.wpos - keyboard.stdin.rpos ≤ stdinBufsize := holds.stdin.bounded
  constructor
  · exact holds.cons
  · constructor
    · exact waiting
    · change keyboard.stdin.wpos - (keyboard.stdin.rpos + 1) ≤ stdinBufsize
      omega
  · exact holds.consUnread
  · have one : keyboard.stdin.wpos - keyboard.stdin.rpos =
        keyboard.stdin.wpos - (keyboard.stdin.rpos + 1) + 1 := by omega
    have unread : keyboard.stdin.unread = queues.stdin := holds.stdinUnread
    rw [first, StdinDevice.unread, one, window_cons] at unread
    exact (List.cons.inj unread).2
  · change (keyboard.delivered ++ [(reader, c)]).map Prod.snd = _
    rw [List.map_append]
    exact congrArg (· ++ [c]) holds.delivered
  · intro other
    have stored := holds.stored other
    by_cases here : other = reader
    · subst here
      simp only [Keyboard.setCall, Function.update_self, ReadCall.stored, Keyboard.to,
        List.filter_append, List.map_append] at stored ⊢
      rw [List.filter_cons_of_pos (by simp)]
      exact List.suffix_append_self_iff.mpr stored
    · simp only [Keyboard.setCall, Function.update_of_ne here, Keyboard.to,
        List.filter_append] at stored ⊢
      rwa [List.filter_cons_of_neg (by simpa using fun same => here same.symm), List.filter_nil,
        List.append_nil]

/-- The loop takes characters from the front. -/
theorem Holds.devStdinLoop {buf : List UInt8} {left : Nat}
    (holds : Holds (keyboard.setCall reader (.returned buf)) queues) :
    ∃ count, Holds (Driver.devStdinLoop reader left buf keyboard) (queues.taken count) := by
  induction left generalizing keyboard buf queues with
  | zero =>
      refine ⟨0, ?_⟩
      rw [InputQueues.taken_zero]
      exact holds
  | succ left inductionHypothesis =>
      rw [Driver.devStdinLoop]
      by_cases waiting : keyboard.stdin.rpos < keyboard.stdin.wpos
      · simp only [if_pos waiting]
        have unread : keyboard.stdin.unread = queues.stdin := holds.stdinUnread
        have one : keyboard.stdin.wpos - keyboard.stdin.rpos =
            keyboard.stdin.wpos - (keyboard.stdin.rpos + 1) + 1 := by omega
        rw [StdinDevice.unread, one, window_cons] at unread
        obtain ⟨count, rest⟩ := inductionHypothesis (holds.deliver unread.symm waiting)
        exact ⟨count + 1, by rwa [InputQueues.taken_succ unread.symm]⟩
      · simp only [if_neg waiting]
        refine ⟨0, ?_⟩
        rw [InputQueues.taken_zero]
        have waits := @Holds.setCall _ _ _ _ (.waiting buf (left + 1) false) holds rfl
        exact waits.setQueue

theorem Holds.devStdinRead {len : Nat} (holds : Holds keyboard queues) :
    ∃ count, Holds (Driver.devStdinRead reader len keyboard) (queues.taken count) := by
  apply Holds.devStdinLoop
  refine ⟨holds.cons, holds.stdin, holds.consUnread, holds.stdinUnread, holds.delivered, ?_⟩
  intro other
  by_cases here : other = reader
  · subst here
    simp only [Keyboard.setCall, Function.update_self, ReadCall.stored]
    exact List.nil_suffix
  · simp only [Keyboard.setCall, Function.update_of_ne here]
    exact holds.stored other

theorem Holds.devStdinResume (holds : Holds keyboard queues) :
    ∃ count, Holds (Driver.devStdinResume reader keyboard) (queues.taken count) := by
  have still : ∃ count, Holds keyboard (queues.taken count) := ⟨0, by rwa [InputQueues.taken_zero]⟩
  unfold Driver.devStdinResume
  split
  · next buf left woken isCall =>
      have same : keyboard.setCall reader (.waiting buf left woken) = keyboard := by
        rw [Keyboard.setCall, ← isCall, Function.update_eq_self]
      rw [← same] at holds
      have returned := holds.setCall (show (ReadCall.returned buf).stored = _ from rfl)
      have apart := @Holds.setQueue _ _ (keyboard.stdin.waitQueue.erase reader) returned
      dsimp only
      split_ifs
      · exact Holds.devStdinLoop apart
      · exact ⟨0, by rw [InputQueues.taken_zero]; exact apart⟩
  · exact still

/-! ## Interrupts -/

theorem ReadCall.stored_wake (call : ReadCall) : call.wake.stored = call.stored := by
  cases call <;> rfl

/-- Waking the readers leaves what they have. -/
theorem Holds.wakeupQueue (holds : Holds keyboard queues) :
    Holds (Driver.wakeupQueue keyboard) queues := by
  refine ⟨holds.cons, ⟨holds.stdin.ordered, holds.stdin.bounded⟩, holds.consUnread,
    holds.stdinUnread, holds.delivered, ?_⟩
  intro other
  have stored := holds.stored other
  change ReadCall.stored (if other ∈ keyboard.stdin.waitQueue then (keyboard.reads other).wake
    else keyboard.reads other) <:+ _
  split_ifs
  · rwa [ReadCall.stored_wake]
  · exact stored

/-- A character that is not NUL comes to the device. -/
theorem Holds.devStdinWrite (holds : Holds keyboard queues) (isChar : c ≠ 0) :
    (keyboard.stdin.wpos - keyboard.stdin.rpos < stdinBufsize →
      Holds (Driver.devStdinWrite c keyboard) { queues with stdin := queues.stdin ++ [c] }) ∧
    (keyboard.stdin.wpos - keyboard.stdin.rpos = stdinBufsize →
      keyboard.stdin.buffer (keyboard.stdin.rpos % stdinBufsize) = c →
      Holds (Driver.devStdinWrite c keyboard) queues) := by
  have proper := holds.stdin
  have written : ∀ {stdin : List UInt8}, (keyboard.stdin.store c).unread = stdin →
      Holds (Driver.devStdinWrite c keyboard) { queues with stdin := stdin } := by
    intro stdin unread
    rw [Driver.devStdinWrite, if_pos isChar]
    apply Holds.wakeupQueue
    have stored := @StdinDevice.Proper.store keyboard.stdin c proper
    exact ⟨holds.cons, ⟨stored.ordered, stored.bounded⟩, holds.consUnread, unread, holds.delivered,
      holds.stored⟩
  constructor
  · intro space
    apply written
    rw [proper.unread_store space, holds.stdinUnread]
  · intro full same
    obtain ⟨before, now⟩ := @StdinDevice.Proper.unread_store_full keyboard.stdin c proper (by omega)
    apply written
    rw [now, ← same, ← before, holds.stdinUnread]

/-- What arrives while the queue has space is stored. -/
theorem arrive_all {unread : List UInt8} :
    Arrive unread typed (unread ++ characters typed) := by
  induction typed generalizing unread with
  | nil =>
      rw [characters_nil, List.append_nil]
      exact .none unread
  | cons c typed inductionHypothesis =>
      by_cases isChar : c ≠ 0
      · rw [characters_cons isChar, List.append_cons]
        exact .stored _ _ _ _ isChar inductionHypothesis
      · obtain rfl := not_not.mp isChar
        rw [characters_nul]
        exact .nul _ _ _ inductionHypothesis

theorem KeyboardEvent.typed_ne_zero {event : KeyboardEvent} (arrives : c ∈ event.typed) : c ≠ 0 := by
  cases event with
  | burst typed => exact ne_zero_of_characters arrives
  | tick typed => exact ne_zero_of_characters arrives
  | read _ _ => cases arrives
  | resume _ => cases arrives

/-! ## Gentle input -/

/-- What the serial port answers finds space in the ring of the console. A tick that finds the ring
of the device full moves no other character than the oldest one there. -/
def Gentle (keyboard : Keyboard) (event : KeyboardEvent) : Prop :=
  keyboard.cons.unread.length + event.typed.length < consbufsize ∧
    match event with
    | .tick typed => keyboard.stdin.wpos - keyboard.stdin.rpos = stdinBufsize →
        ∀ c ∈ (keyboard.cons.unread ++ (KeyboardEvent.tick typed).typed).head?,
          keyboard.stdin.buffer (keyboard.stdin.rpos % stdinBufsize) = c
    | _ => True

/-- Nothing is lost but what may be: the rings hold what the queues hold after some moves, and a
poll that answers 0 found no character. -/
def LosesNothing (events : List KeyboardEvent) (keyboard : Keyboard) : Prop :=
  ∃ queues, Run QueuesMove .empty events queues ∧ Holds keyboard queues ∧
    ((consGetc [] keyboard.cons).1 = 0 → queues.cons = []) ∧
    (queues.delivered ++ queues.stdin ++ queues.cons).Sublist (events.flatMap KeyboardEvent.typed)

theorem Holds.step {event : KeyboardEvent} (holds : Holds keyboard queues)
    (proper : ∀ c ∈ queues.cons, c ≠ 0) (step : keyboardMachine.StepMeeting Gentle keyboard event after) :
    ∃ queues', QueuesMove queues event queues' ∧ Holds after queues' := by
  obtain ⟨⟨_, answered⟩, space, oldest⟩ := step
  rw [Cons.length_unread] at space
  cases event with
  | burst typed =>
      obtain rfl := Except.ok.inj answered
      have unread := @Cons.Proper.unread_consIntr keyboard.cons _ holds.cons space
      rw [holds.consUnread] at unread
      refine ⟨_, .burst queues typed _ arrive_all, ?_⟩
      exact ⟨holds.cons.consIntr, holds.stdin, unread, holds.stdinUnread, holds.delivered,
        holds.stored⟩
  | tick typed =>
      obtain rfl : timerInterrupt typed keyboard = after := Except.ok.inj answered
      unfold timerInterrupt
      dsimp only
      have stored := @Cons.Proper.unread_consIntr keyboard.cons (typed.map serialProcData) holds.cons
        space
      have arrives : Arrive queues.cons (typed.map serialProcData)
          (serialIntr typed keyboard.cons).unread := by
        rw [serialIntr, stored, holds.consUnread]
        exact arrive_all
      obtain ⟨kept, ⟨none, polled⟩ | first⟩ := @Cons.Proper.consGetc keyboard.cons typed holds.cons
      · refine ⟨_, .idle queues typed (none ▸ arrives), ?_⟩
        rw [polled, Driver.devStdinWrite, if_neg (not_not.mpr rfl)]
        exact ⟨(polled ▸ kept), holds.stdin, none, holds.stdinUnread, holds.delivered, holds.stored⟩
      · generalize consGetc typed keyboard.cons = polled at kept first
        obtain ⟨c, cons⟩ := polled
        have isChar : c ≠ 0 := by
          have among : c ∈ (serialIntr typed keyboard.cons).unread := first ▸ List.mem_cons_self
          rw [serialIntr, stored, holds.consUnread] at among
          rcases List.mem_append.mp among with early | late
          · exact proper c early
          · exact ne_zero_of_characters late
        have polls : Holds { keyboard with cons := cons } { queues with cons := cons.unread } :=
          ⟨kept, holds.stdin, rfl, holds.stdinUnread, holds.delivered, holds.stored⟩
        have written := polls.devStdinWrite isChar
        by_cases full : keyboard.stdin.wpos - keyboard.stdin.rpos < stdinBufsize
        · exact ⟨_, .moved queues typed _ c (first ▸ arrives), written.1 full⟩
        · have isFull : keyboard.stdin.wpos - keyboard.stdin.rpos = stdinBufsize :=
            le_antisymm holds.stdin.bounded (not_lt.mp full)
          have same := oldest isFull c (by
            change c ∈ (keyboard.cons.unread ++ characters (typed.map serialProcData)).head?
            rw [← stored]
            exact first ▸ rfl)
          refine ⟨_, .dropped queues typed _ c (first ▸ arrives) ?_, written.2 isFull same⟩
          rw [← holds.stdinUnread, StdinDevice.length_unread, isFull]
  | read reader len =>
      obtain rfl := Except.ok.inj answered
      obtain ⟨count, taken⟩ := @Holds.devStdinRead keyboard queues reader len holds
      exact ⟨_, .read queues reader len count, taken⟩
  | resume reader =>
      obtain rfl := Except.ok.inj answered
      obtain ⟨count, taken⟩ := @Holds.devStdinResume keyboard queues reader holds
      exact ⟨_, .resumed queues reader count, taken⟩

/-- The rings hold the queues after a run of gentle events. -/
theorem Holds.run {first : Keyboard} {start : InputQueues} {events : List KeyboardEvent}
    (holds : Holds first start) (proper : ∀ c ∈ start.delivered ++ start.stdin ++ start.cons, c ≠ 0)
    (run : Run (keyboardMachine.StepMeeting Gentle) first events keyboard) :
    ∃ queues, Run QueuesMove start events queues ∧ Holds keyboard queues := by
  induction run generalizing start with
  | nil => exact ⟨start, .nil _, holds⟩
  | cons move rest inductionHypothesis =>
      obtain ⟨next, moves, holds'⟩ := holds.step
        (fun c among => proper c (List.mem_append_right _ among)) move
      have proper' : ∀ c ∈ next.delivered ++ next.stdin ++ next.cons, c ≠ 0 := by
        intro c among
        rcases List.mem_append.mp (moves.sublist.mem among) with early | late
        · exact proper c early
        · exact KeyboardEvent.typed_ne_zero late
      obtain ⟨queues, rest, last⟩ := inductionHypothesis holds' proper'
      exact ⟨queues, .cons moves rest, last⟩

/-- Input that arrives gently is not lost. -/
theorem keyboard_loses_nothing {events : List KeyboardEvent}
    (run : Run (keyboardMachine.StepMeeting Gentle) Keyboard.booted events keyboard) :
    LosesNothing events keyboard := by
  have start : Holds Keyboard.booted .empty :=
    ⟨⟨by decide, by decide⟩, ⟨by decide, by decide⟩, rfl, rfl, rfl, fun _ => List.nil_suffix⟩
  obtain ⟨queues, moves, holds⟩ := start.run (fun _ among => nomatch among) run
  have ordered := queues_in_order moves
  refine ⟨queues, moves, holds, ?_, ordered⟩
  intro answered
  obtain ⟨_, ⟨none, _⟩ | first⟩ := @Cons.Proper.consGetc keyboard.cons [] holds.cons
  · rw [← holds.consUnread]
    exact none
  · have first : keyboard.cons.unread =
        (consGetc [] keyboard.cons).1 :: (consGetc [] keyboard.cons).2.unread := first
    have among : (0 : UInt8) ∈ queues.cons := by
      rw [← holds.consUnread, first, answered]
      exact List.mem_cons_self
    obtain ⟨event, _, late⟩ := List.mem_flatMap.mp
      (ordered.mem (List.mem_append_right _ among))
    exact absurd rfl (KeyboardEvent.typed_ne_zero late)

instance : DecidableRel keyboardMachine.Admits
  | keyboard, .read reader _ => inferInstanceAs (Decidable (¬ (keyboard.reads reader).Waits))
  | keyboard, .resume reader => inferInstanceAs (Decidable (keyboard.reads reader).Waits)
  | _, .burst _ => inferInstanceAs (Decidable True)
  | _, .tick _ => inferInstanceAs (Decidable True)

instance : DecidableRel Gentle
  | _, .burst _ => inferInstanceAs (Decidable (_ ∧ True))
  | keyboard, .tick typed => inferInstanceAs (Decidable
      (keyboard.cons.unread.length + (KeyboardEvent.tick typed).typed.length < consbufsize ∧
        (keyboard.stdin.wpos - keyboard.stdin.rpos = stdinBufsize →
          ∀ c ∈ (keyboard.cons.unread ++ (KeyboardEvent.tick typed).typed).head?,
            keyboard.stdin.buffer (keyboard.stdin.rpos % stdinBufsize) = c)))
  | _, .read _ _ => inferInstanceAs (Decidable (_ ∧ True))
  | _, .resume _ => inferInstanceAs (Decidable (_ ∧ True))

/-- A reader waits for two characters, and three arrive. -/
def typedAhead : List KeyboardEvent :=
  [.read 1 2, .burst [97, 0, 127], .tick [98], .resume 1, .tick [], .resume 1]

theorem keyboard_loses_nothing_small : ∃ keyboard,
    Run (keyboardMachine.StepMeeting Gentle) Keyboard.booted typedAhead keyboard ∧
    keyboard.delivered = [(1, 97), (1, 8)] ∧ keyboard.cons.unread = [98] ∧
    LosesNothing typedAhead keyboard := by
  have done : (follow (keyboardMachine.next Gentle) Keyboard.booted typedAhead).any
      (fun keyboard => keyboard.delivered = [(1, 97), (1, 8)] ∧ keyboard.cons.unread = [98]) =
        true := by decide +kernel
  obtain ⟨keyboard, ran, received⟩ := (Option.any_eq_true _ _).mp done
  obtain ⟨delivered, unread⟩ := of_decide_eq_true received
  have run := Machine.follow_next_run ran
  exact ⟨keyboard, run, delivered, unread, keyboard_loses_nothing run⟩

/-! ## Input that is lost -/

/-- What is unread stays in front. -/
theorem Arrive.keeps {unread unread' : List UInt8} (arrive : Arrive unread typed unread') :
    unread <+: unread' := by
  induction arrive with
  | none => exact List.prefix_rfl
  | nul _ _ _ _ inductionHypothesis => exact inductionHypothesis
  | stored unread _ _ c _ _ inductionHypothesis =>
      exact (List.prefix_append unread [c]).trans inductionHypothesis
  | dropped _ _ _ _ _ _ inductionHypothesis => exact inductionHypothesis

/-- The first character that arrives is kept. -/
theorem Arrive.first {unread : List UInt8} (arrive : Arrive [] (c :: typed) unread)
    (isChar : c ≠ 0) : unread ≠ [] := by
  cases arrive with
  | nul => exact absurd rfl isChar
  | stored _ _ _ _ _ rest =>
      rintro rfl
      cases List.prefix_nil.mp rest.keeps
  | dropped _ _ _ _ full => exact absurd full (by decide)

/-- A burst that fills the ring of the console. -/
def longBurst : List KeyboardEvent := [.burst (List.replicate consbufsize 97)]

/-- As many characters as the ring of the device holds, and another one. -/
def noReader : List KeyboardEvent := List.replicate stdinBufsize (.tick [97]) ++ [.tick [98]]

theorem typed_noReader :
    noReader.flatMap KeyboardEvent.typed = List.replicate stdinBufsize 97 ++ [98] := by
  have ticks : ∀ count, (List.replicate count (KeyboardEvent.tick [97])).flatMap
      KeyboardEvent.typed = List.replicate count 97 := by
    intro count
    induction count with
    | zero => rfl
    | succ count inductionHypothesis =>
        rw [List.replicate_succ, List.flatMap_cons, inductionHypothesis, List.replicate_succ]
        rfl
  rw [noReader, List.flatMap_append, ticks]
  rfl

/-- A tick moves the only character on. -/
theorem Cons.Proper.consGetc_only (proper : cons.Proper) (none : cons.unread = [])
    (only : characters ([c].map serialProcData) = [c]) :
    (Driver.consGetc [c] cons).1 = c ∧ (Driver.consGetc [c] cons).2.Proper ∧
      (Driver.consGetc [c] cons).2.unread = [] := by
  have empty : cons.count = 0 := by rw [← Cons.length_unread, none, List.length_nil]
  have stored : (serialIntr [c] cons).unread = [c] := by
    rw [serialIntr, proper.unread_consIntr (by rw [only, empty, List.length_singleton]; decide), none,
      only, List.nil_append]
  obtain ⟨kept, ⟨isNone, _⟩ | first⟩ := @Cons.Proper.consGetc cons [c] proper
  · cases isNone.symm.trans stored
  · obtain ⟨isFirst, rest⟩ := List.cons.inj (first.symm.trans stored)
    exact ⟨isFirst, kept, rest⟩

/-- Ticks fill the ring of the device when nobody reads. -/
theorem ticks_fill {count : Nat} (space : count ≤ stdinBufsize) :
    ∃ keyboard, Run keyboardMachine.Step Keyboard.booted
        (List.replicate count (.tick [97])) keyboard ∧
      keyboard.cons.Proper ∧ keyboard.cons.unread = [] ∧ keyboard.stdin.rpos = 0 ∧
      keyboard.stdin.wpos = count := by
  induction count with
  | zero => exact ⟨Keyboard.booted, .nil _, ⟨by decide, by decide⟩, rfl, rfl, rfl⟩
  | succ count inductionHypothesis =>
      obtain ⟨keyboard, run, proper, none, rpos, wpos⟩ := inductionHypothesis (by omega)
      obtain ⟨isChar, proper', none'⟩ := @Cons.Proper.consGetc_only _ 97 proper none (by decide)
      have step : keyboardMachine.Step keyboard (.tick [97]) (timerInterrupt [97] keyboard) :=
        ⟨trivial, rfl⟩
      have run' := run.append (Run.single step)
      rw [← List.replicate_succ'] at run'
      refine ⟨_, run', ?_⟩
      have moved : timerInterrupt [97] keyboard =
          devStdinWrite 97 { keyboard with cons := (consGetc [97] keyboard.cons).2 } := by
        rw [timerInterrupt, isChar]
      rw [moved, devStdinWrite, if_pos (by decide)]
      refine ⟨proper', none', rpos, ?_⟩
      change (if keyboard.stdin.wpos - keyboard.stdin.rpos < stdinBufsize then keyboard.stdin.wpos + 1
        else keyboard.stdin.wpos) = count + 1
      rw [if_pos (by omega), wpos]

/-- The last character is behind all others. -/
theorem last_of_sublist {rest : List UInt8} {count : Nat}
    (ordered : (98 :: rest).Sublist (List.replicate count 97 ++ [98])) : rest = [] := by
  induction count with
  | zero => exact List.sublist_nil.mp (List.cons_sublist_cons.mp ordered)
  | succ count inductionHypothesis =>
      rw [List.replicate_succ, List.cons_append] at ordered
      cases ordered with
      | cons _ later => exact inductionHypothesis later

/-- The burst empties the ring of the console, and the last character takes the place of the first
one in the ring of the device. -/
theorem keyboard_loses_characters :
    (∃ keyboard, Run keyboardMachine.Step Keyboard.booted longBurst keyboard ∧
      ¬ LosesNothing longBurst keyboard) ∧
    ∃ keyboard, Run keyboardMachine.Step Keyboard.booted noReader keyboard ∧
      ¬ LosesNothing noReader keyboard := by
  constructor
  · have done : (follow (keyboardMachine.next fun _ _ => True) Keyboard.booted longBurst).any
        (fun keyboard => keyboard.cons.count = 0) = true := by decide +kernel
    obtain ⟨keyboard, ran, isNone⟩ := (Option.any_eq_true _ _).mp done
    refine ⟨keyboard, Run.mono (fun _ _ _ move => move.1) (Machine.follow_next_run ran), ?_⟩
    rintro ⟨queues, moves, holds, _⟩
    have nothing : queues.cons = [] := by
      rw [← holds.consUnread]
      exact List.eq_nil_of_length_eq_zero (Cons.length_unread.trans (of_decide_eq_true isNone))
    cases moves with
    | cons move rest =>
        cases rest
        cases move with
        | burst _ unread arrive =>
            have first : (List.replicate consbufsize 97).map serialProcData =
                97 :: List.replicate 511 97 := by
              rw [List.map_replicate]
              rfl
            rw [first] at arrive
            exact arrive.first (by decide) nothing
  · obtain ⟨keyboard, run, proper, none, rpos, wpos⟩ := ticks_fill (le_refl stdinBufsize)
    obtain ⟨isChar, _⟩ := @Cons.Proper.consGetc_only _ 98 proper none (by decide)
    have step : keyboardMachine.Step keyboard (.tick [98]) (timerInterrupt [98] keyboard) :=
      ⟨trivial, rfl⟩
    refine ⟨_, run.append (Run.single step), ?_⟩
    have moved : timerInterrupt [98] keyboard =
        devStdinWrite 98 { keyboard with cons := (consGetc [98] keyboard.cons).2 } := by
      rw [timerInterrupt, isChar]
    rw [moved, devStdinWrite, if_pos (by decide)]
    have full : ¬ keyboard.stdin.wpos - keyboard.stdin.rpos < stdinBufsize := by omega
    obtain ⟨_, replaced⟩ := @StdinDevice.Proper.unread_store_full keyboard.stdin 98
      ⟨by omega, by omega⟩ full
    rintro ⟨queues, moves, holds, _, ordered⟩
    have unread : (keyboard.stdin.store 98).unread = queues.stdin := holds.stdinUnread
    rw [typed_noReader, ← unread, replaced] at ordered
    have inOrder := (List.sublist_append_left _ queues.cons).trans ordered
    have only := last_of_sublist ((List.sublist_append_right queues.delivered _).trans inOrder)
    have count := congrArg List.length only
    rw [List.length_tail, StdinDevice.length_unread, wpos, rpos] at count
    cases count

end UCore.Driver
