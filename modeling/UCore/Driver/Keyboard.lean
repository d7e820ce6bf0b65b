import UCore.Lib.Transition
import UCore.Lib.Window

/-!
Contract: keyboard input, from the serial port through the ring of `kern/driver/console.c` and the
ring of `kern/fs/devs/dev_stdin.c` to the processes that read it.

Owns:
- `cons_intr`, `cons_getc`, `dev_stdin_write` and `dev_stdin_read`, with the timer interrupt that
  joins them;
- any interleaving of interrupts and readers.

The positions of `dev_stdin.c` are signed 64-bit counters that only grow, and are natural numbers
here. A burst is what the serial port answers before it answers that it has nothing.

Does not own: when processes are scheduled, and what a reader does with the characters.
-/

set_option autoImplicit false

namespace UCore.Driver

open UCore.Lib

/-! ## The ring of the console -/

def consbufsize : Nat := 512

structure Cons where
  buf : Nat → UInt8
  rpos : Nat
  wpos : Nat

/-- The next position. -/
def Cons.advance (pos : Nat) : Nat := if pos + 1 = consbufsize then 0 else pos + 1

def consIntr : List UInt8 → Cons → Cons
  | [], cons => cons
  | c :: typed, cons =>
      if c ≠ 0 then
        consIntr typed { cons with
          buf := Function.update cons.buf cons.wpos c
          wpos := Cons.advance cons.wpos }
      else consIntr typed cons

def serialProcData (c : UInt8) : UInt8 := if c = 127 then 8 else c

def serialIntr (typed : List UInt8) (cons : Cons) : Cons := consIntr (typed.map serialProcData) cons

def consGetc (typed : List UInt8) (cons : Cons) : UInt8 × Cons :=
  let cons := serialIntr typed cons
  if cons.rpos ≠ cons.wpos then (cons.buf cons.rpos, { cons with rpos := Cons.advance cons.rpos })
  else (0, cons)

/-! ## The ring of the device -/

def stdinBufsize : Nat := 4096

structure StdinDevice where
  buffer : Nat → UInt8
  rpos : Nat
  wpos : Nat
  waitQueue : List Nat

/-- A call of `dev_stdin_read`, with the characters it stored. It waits for `left` more, and was
woken for the keyboard or not; or it has returned. -/
inductive ReadCall
  | none
  | waiting (buf : List UInt8) (left : Nat) (woken : Bool)
  | returned (buf : List UInt8)

def ReadCall.Waits : ReadCall → Prop
  | .waiting _ _ _ => True
  | _ => False

instance : DecidablePred ReadCall.Waits
  | .none => inferInstanceAs (Decidable False)
  | .waiting _ _ _ => inferInstanceAs (Decidable True)
  | .returned _ => inferInstanceAs (Decidable False)

/-- The characters that a call has stored. -/
def ReadCall.stored : ReadCall → List UInt8
  | .none => []
  | .waiting buf _ _ => buf
  | .returned buf => buf

/-- `wakeup_wait` -/
def ReadCall.wake : ReadCall → ReadCall
  | .waiting buf left _ => .waiting buf left true
  | call => call

/-- The rings, the last call of every reader, and what the readers stored, in order. -/
structure Keyboard where
  cons : Cons
  stdin : StdinDevice
  reads : Nat → ReadCall
  delivered : List (Nat × UInt8)

def Keyboard.booted : Keyboard where
  cons := ⟨fun _ => 0, 0, 0⟩
  stdin := ⟨fun _ => 0, 0, 0, []⟩
  reads _ := .none
  delivered := []

/-- `wakeup_queue` -/
def wakeupQueue (keyboard : Keyboard) : Keyboard :=
  { keyboard with
    stdin := { keyboard.stdin with waitQueue := [] }
    reads := fun reader =>
      if reader ∈ keyboard.stdin.waitQueue then (keyboard.reads reader).wake
      else keyboard.reads reader }

def devStdinWrite (c : UInt8) (keyboard : Keyboard) : Keyboard :=
  if c ≠ 0 then
    let stdin := keyboard.stdin
    wakeupQueue { keyboard with stdin := { stdin with
      buffer := Function.update stdin.buffer (stdin.wpos % stdinBufsize) c
      wpos := if stdin.wpos - stdin.rpos < stdinBufsize then stdin.wpos + 1 else stdin.wpos } }
  else keyboard

/-- The loop of `dev_stdin_read` for `left` characters, until it is done or waits. -/
def devStdinLoop (reader : Nat) : Nat → List UInt8 → Keyboard → Keyboard
  | 0, buf, keyboard =>
      { keyboard with reads := Function.update keyboard.reads reader (.returned buf) }
  | left + 1, buf, keyboard =>
      let stdin := keyboard.stdin
      if stdin.rpos < stdin.wpos then
        let c := stdin.buffer (stdin.rpos % stdinBufsize)
        devStdinLoop reader left (buf ++ [c]) { keyboard with
          stdin := { stdin with rpos := stdin.rpos + 1 }
          delivered := keyboard.delivered ++ [(reader, c)] }
      else
        { keyboard with
          stdin := { stdin with waitQueue := stdin.waitQueue ++ [reader] }
          reads := Function.update keyboard.reads reader (.waiting buf (left + 1) false) }

/-- `dev_stdin_read` -/
def devStdinRead (reader len : Nat) (keyboard : Keyboard) : Keyboard :=
  devStdinLoop reader len [] keyboard

/-- `dev_stdin_read` behind `schedule()` -/
def devStdinResume (reader : Nat) (keyboard : Keyboard) : Keyboard :=
  match keyboard.reads reader with
  | .waiting buf left woken =>
      let keyboard := { keyboard with stdin := { keyboard.stdin with
        waitQueue := keyboard.stdin.waitQueue.erase reader } }
      if woken then devStdinLoop reader left buf keyboard
      else { keyboard with reads := Function.update keyboard.reads reader (.returned buf) }
  | _ => keyboard

/-- What `interrupt_handler` does with the keyboard when the timer interrupts. -/
def timerInterrupt (typed : List UInt8) (keyboard : Keyboard) : Keyboard :=
  let polled := consGetc typed keyboard.cons
  devStdinWrite polled.1 { keyboard with cons := polled.2 }

/-! ## Interleavings -/

inductive KeyboardEvent
  /-- Characters arrive at the serial port. -/
  | burst (typed : List UInt8)
  /-- The timer interrupts, while the serial port has characters. -/
  | tick (typed : List UInt8)
  | read (reader len : Nat)
  /-- A reader runs again: it was woken, or it was interrupted. -/
  | resume (reader : Nat)

/-- The interrupts and the readers. -/
def keyboardMachine : Machine Keyboard KeyboardEvent Empty where
  Admits
    | keyboard, .read reader _ => ¬ (keyboard.reads reader).Waits
    | keyboard, .resume reader => (keyboard.reads reader).Waits
    | _, _ => True
  answer
    | keyboard, .burst typed => .ok { keyboard with cons := serialIntr typed keyboard.cons }
    | keyboard, .tick typed => .ok (timerInterrupt typed keyboard)
    | keyboard, .read reader len => .ok (devStdinRead reader len keyboard)
    | keyboard, .resume reader => .ok (devStdinResume reader keyboard)

/-! ## Queues -/

/-- The characters between the port and the readers, and what the readers received. -/
structure InputQueues where
  cons : List UInt8
  stdin : List UInt8
  delivered : List UInt8

def InputQueues.empty : InputQueues := ⟨[], [], []⟩

/-- Characters arrive. Only NUL is ignored, and a character may be dropped where
`CONSBUFSIZE - 1` are unread. -/
inductive Arrive : List UInt8 → List UInt8 → List UInt8 → Prop
  | none (cons : List UInt8) : Arrive cons [] cons
  | nul (cons cons' typed : List UInt8) (rest : Arrive cons typed cons') :
      Arrive cons (0 :: typed) cons'
  | stored (cons cons' typed : List UInt8) (c : UInt8) (proper : c ≠ 0)
      (rest : Arrive (cons ++ [c]) typed cons') : Arrive cons (c :: typed) cons'
  | dropped (cons cons' typed : List UInt8) (c : UInt8) (full : consbufsize - 1 ≤ cons.length)
      (rest : Arrive cons typed cons') : Arrive cons (c :: typed) cons'

/-- What the input path does to the queues. A tick moves a character on, which may be dropped where
`STDIN_BUFSIZE` are unread, and readers take characters from the front. -/
inductive QueuesMove : InputQueues → KeyboardEvent → InputQueues → Prop
  | burst (queues : InputQueues) (typed cons : List UInt8)
      (arrive : Arrive queues.cons (typed.map serialProcData) cons) :
      QueuesMove queues (.burst typed) { queues with cons := cons }
  | idle (queues : InputQueues) (typed : List UInt8)
      (arrive : Arrive queues.cons (typed.map serialProcData) []) :
      QueuesMove queues (.tick typed) { queues with cons := [] }
  | moved (queues : InputQueues) (typed cons : List UInt8) (c : UInt8)
      (arrive : Arrive queues.cons (typed.map serialProcData) (c :: cons)) :
      QueuesMove queues (.tick typed) { queues with cons := cons, stdin := queues.stdin ++ [c] }
  | dropped (queues : InputQueues) (typed cons : List UInt8) (c : UInt8)
      (arrive : Arrive queues.cons (typed.map serialProcData) (c :: cons))
      (full : stdinBufsize ≤ queues.stdin.length) :
      QueuesMove queues (.tick typed) { queues with cons := cons }
  | read (queues : InputQueues) (reader len count : Nat) :
      QueuesMove queues (.read reader len) { queues with
        stdin := queues.stdin.drop count
        delivered := queues.delivered ++ queues.stdin.take count }
  | resumed (queues : InputQueues) (reader count : Nat) :
      QueuesMove queues (.resume reader) { queues with
        stdin := queues.stdin.drop count
        delivered := queues.delivered ++ queues.stdin.take count }

/-- The characters but NUL. -/
def characters (typed : List UInt8) : List UInt8 := typed.filter fun c => decide (c ≠ 0)

@[simp] theorem characters_nil : characters [] = [] := rfl

@[simp] theorem characters_nul {typed : List UInt8} :
    characters (0 :: typed) = characters typed := rfl

theorem characters_cons {typed : List UInt8} {c : UInt8} (proper : c ≠ 0) :
    characters (c :: typed) = c :: characters typed :=
  List.filter_cons_of_pos (decide_eq_true proper)

theorem ne_zero_of_characters {typed : List UInt8} {c : UInt8} (among : c ∈ characters typed) :
    c ≠ 0 := by
  have proper := (List.mem_filter.mp among).2
  exact of_decide_eq_true proper

/-- The characters that arrive in an event. -/
def KeyboardEvent.typed : KeyboardEvent → List UInt8
  | .burst typed => characters (typed.map serialProcData)
  | .tick typed => characters (typed.map serialProcData)
  | _ => []

theorem Arrive.sublist {cons typed cons' : List UInt8} (arrive : Arrive cons typed cons') :
    cons'.Sublist (cons ++ characters typed) := by
  induction arrive with
  | none cons => rw [characters_nil, List.append_nil]
  | nul cons cons' typed rest inductionHypothesis => rwa [characters_nul]
  | stored cons cons' typed c proper rest inductionHypothesis =>
      rwa [characters_cons proper, List.append_cons]
  | dropped cons cons' typed c full rest inductionHypothesis =>
      apply inductionHypothesis.trans
      apply List.Sublist.append_left
      exact (List.sublist_cons_self c typed).filter _

/-- What the queues and the readers hold is in the order in which it arrived. -/
theorem QueuesMove.sublist {queues queues' : InputQueues} {event : KeyboardEvent}
    (move : QueuesMove queues event queues') :
    (queues'.delivered ++ queues'.stdin ++ queues'.cons).Sublist
      (queues.delivered ++ queues.stdin ++ queues.cons ++ event.typed) := by
  cases move with
  | burst typed cons arrive =>
      rw [List.append_assoc _ queues.cons]
      exact arrive.sublist.append_left _
  | idle typed arrive =>
      rw [List.append_assoc _ queues.cons]
      exact arrive.sublist.append_left _
  | moved typed cons c arrive =>
      rw [List.append_assoc _ queues.cons, List.append_assoc queues.delivered,
        List.append_assoc queues.stdin, List.singleton_append, ← List.append_assoc]
      exact arrive.sublist.append_left _
  | dropped typed cons c arrive full =>
      rw [List.append_assoc _ queues.cons]
      exact ((List.sublist_cons_self c cons).trans arrive.sublist).append_left _
  | read reader len count =>
      simp only [KeyboardEvent.typed, List.append_nil, List.append_assoc]
      rw [← List.append_assoc (queues.stdin.take count), List.take_append_drop]
  | resumed reader count =>
      simp only [KeyboardEvent.typed, List.append_nil, List.append_assoc]
      rw [← List.append_assoc (queues.stdin.take count), List.take_append_drop]

theorem queues_in_order {events : List KeyboardEvent} {first queues : InputQueues}
    (run : Run QueuesMove first events queues) :
    (queues.delivered ++ queues.stdin ++ queues.cons).Sublist
      (first.delivered ++ first.stdin ++ first.cons ++ events.flatMap KeyboardEvent.typed) := by
  induction run with
  | nil => rw [List.flatMap_nil, List.append_nil]
  | cons move _ inductionHypothesis =>
      apply inductionHypothesis.trans
      rw [List.flatMap_cons, ← List.append_assoc]
      exact move.sublist.append_right _

end UCore.Driver
