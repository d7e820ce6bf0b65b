import Mathlib.Init

/-!
Contract: sequential programs over a state, and the rules of their postconditions.

Owns:
- programs that return a value, fail, or stop for good, with the state they leave;
- `Ensures`, what a program guarantees when it returns, and under which circumstances it may
  stop;
- one rule for each way of building a program.

Does not own: any particular state or failure.
-/

set_option autoImplicit false

namespace UCore.Lib

/-- Runs on a state. A failure keeps the state that was reached, a stop does not. -/
def Program (State Failure Stop α : Type) : Type :=
  State → Except Stop (Except Failure α × State)

namespace Program

variable {State Failure Stop α β : Type}

protected def pure (value : α) : Program State Failure Stop α :=
  fun state => .ok (.ok value, state)

protected def bind (first : Program State Failure Stop α)
    (second : α → Program State Failure Stop β) : Program State Failure Stop β :=
  fun state =>
    match first state with
    | .error stop => .error stop
    | .ok (.error failure, after) => .ok (.error failure, after)
    | .ok (.ok value, after) => second value after

instance : Monad (Program State Failure Stop) where
  pure := Program.pure
  bind := Program.bind

theorem bind_pure_id (program : Program State Failure Stop α) :
    (program >>= fun value => pure (id value)) = program := by
  funext state
  show Program.bind program (fun value => Program.pure (id value)) state = program state
  unfold Program.bind Program.pure
  cases program state with
  | error stop => rfl
  | ok pair =>
      obtain ⟨result, after⟩ := pair
      cases result <;> rfl

theorem bind_bind {γ : Type} (first : Program State Failure Stop α)
    (second : α → Program State Failure Stop β) (third : β → Program State Failure Stop γ) :
    (first >>= second >>= third) = (first >>= fun value => second value >>= third) := by
  funext state
  show Program.bind (Program.bind first second) third state =
    Program.bind first (fun value => Program.bind (second value) third) state
  unfold Program.bind
  cases first state with
  | error stop => rfl
  | ok pair =>
      obtain ⟨result, after⟩ := pair
      cases result <;> rfl

instance : LawfulMonad (Program State Failure Stop) :=
  LawfulMonad.mk' (Program State Failure Stop) bind_pure_id (fun _ _ => rfl) bind_bind

def fail (failure : Failure) : Program State Failure Stop α :=
  fun state => .ok (.error failure, state)

def stop (reason : Stop) : Program State Failure Stop α := fun _ => .error reason

/-- Goes on where the condition holds, and stops elsewhere. -/
def require (reason : Stop) (condition : Prop) [Decidable condition] :
    Program State Failure Stop Unit :=
  fun state => if condition then .ok (.ok (), state) else .error reason

def read : Program State Failure Stop State := fun state => .ok (.ok state, state)

def modify (change : State → State) : Program State Failure Stop Unit :=
  fun state => .ok (.ok (), change state)

/-- Runs a program and returns its failure as a value. -/
def attempt (program : Program State Failure Stop α) :
    Program State Failure Stop (Except Failure α) :=
  fun state =>
    match program state with
    | .error stop => .error stop
    | .ok (result, after) => .ok (.ok result, after)

/-- Where the program returns, `post` holds of its result and the state it leaves; it stops only
if `mayStop`. -/
def Ensures (mayStop : Prop) (program : Program State Failure Stop α) (state : State)
    (post : Except Failure α → State → Prop) : Prop :=
  match program state with
  | .error _ => mayStop
  | .ok (result, after) => post result after

variable {mayStop : Prop} {state : State} {program : Program State Failure Stop α}
  {post : Except Failure α → State → Prop}

theorem ensures_of_run {result : Except Failure α} {after : State}
    (ran : program state = .ok (result, after)) (holds : post result after) :
    Ensures mayStop program state post := by
  simpa only [Ensures, ran] using holds

theorem ensures_of_stop {reason : Stop} (ran : program state = .error reason) (allowed : mayStop) :
    Ensures mayStop program state post := by
  simpa only [Ensures, ran] using allowed

theorem Ensures.of_ok {result : Except Failure α} {after : State}
    (ensures : Ensures mayStop program state post) (ran : program state = .ok (result, after)) :
    post result after := by
  simpa only [Ensures, ran] using ensures

/-- A program that may not stop returns. -/
theorem Ensures.returns (ensures : Ensures mayStop program state post) (goesOn : ¬ mayStop) :
    ∃ result after, program state = .ok (result, after) ∧ post result after := by
  unfold Ensures at ensures
  cases ran : program state with
  | error stop =>
      rw [ran] at ensures
      exact absurd ensures goesOn
  | ok pair =>
      rw [ran] at ensures
      exact ⟨pair.1, pair.2, rfl, ensures⟩

/-- Only what the program does in the state matters. -/
theorem Ensures.of_same {other : Program State Failure Stop α} (same : program state = other state)
    (ensures : Ensures mayStop other state post) : Ensures mayStop program state post := by
  unfold Ensures
  rwa [same]

theorem Ensures.weaken {mayStop' : Prop} {post' : Except Failure α → State → Prop}
    (ensures : Ensures mayStop program state post) (stops : mayStop → mayStop')
    (weaker : ∀ result after, post result after → post' result after) :
    Ensures mayStop' program state post' := by
  unfold Ensures at *
  cases ran : program state with
  | error stop =>
      rw [ran] at ensures
      exact stops ensures
  | ok pair =>
      rw [ran] at ensures
      exact weaker _ _ ensures

/-- Two facts about what a program leaves. -/
theorem Ensures.both {mayStop' : Prop} {post' : Except Failure α → State → Prop}
    (first : Ensures mayStop program state post) (second : Ensures mayStop' program state post') :
    Ensures (mayStop ∧ mayStop') program state fun result after =>
      post result after ∧ post' result after := by
  unfold Ensures at *
  cases ran : program state with
  | error stop =>
      rw [ran] at first second
      exact ⟨first, second⟩
  | ok pair =>
      rw [ran] at first second
      exact ⟨first, second⟩

theorem ensures_pure {value : α} (holds : post (.ok value) state) :
    Ensures mayStop (pure value : Program State Failure Stop α) state post :=
  holds

theorem ensures_fail {failure : Failure} (holds : post (.error failure) state) :
    Ensures mayStop (fail failure : Program State Failure Stop α) state post :=
  holds

theorem ensures_stop {reason : Stop} (allowed : mayStop) :
    Ensures mayStop (stop reason : Program State Failure Stop α) state post :=
  allowed

theorem ensures_bind {second : α → Program State Failure Stop β}
    {post' : Except Failure β → State → Prop} (first : Ensures mayStop program state post)
    (goesOn : ∀ value after, post (.ok value) after → Ensures mayStop (second value) after post')
    (fails : ∀ failure after, post (.error failure) after → post' (.error failure) after) :
    Ensures mayStop (program >>= second) state post' := by
  unfold Ensures at first
  cases ran : program state with
  | error stop =>
      rw [ran] at first
      simpa only [Ensures, bind, Program.bind, ran] using first
  | ok pair =>
      obtain ⟨result, after⟩ := pair
      rw [ran] at first
      cases result with
      | error failure =>
          simpa only [Ensures, bind, Program.bind, ran] using fails failure after first
      | ok value =>
          have rest := goesOn value after first
          simpa only [Ensures, bind, Program.bind, ran] using rest

/-- The first program is known to return a value. -/
theorem ensures_bind_run {second : α → Program State Failure Stop β} {value : α} {after : State}
    {post' : Except Failure β → State → Prop} (ran : program state = .ok (.ok value, after))
    (rest : Ensures mayStop (second value) after post') :
    Ensures mayStop (program >>= second) state post' := by
  simpa only [Ensures, bind, Program.bind, ran] using rest

theorem ensures_bind_stop {second : α → Program State Failure Stop β} {reason : Stop}
    {post' : Except Failure β → State → Prop} (ran : program state = .error reason)
    (allowed : mayStop) : Ensures mayStop (program >>= second) state post' := by
  simpa only [Ensures, bind, Program.bind, ran] using allowed

theorem ensures_require {reason : Stop} {condition : Prop} [Decidable condition]
    {second : Unit → Program State Failure Stop β} {post' : Except Failure β → State → Prop}
    (holds : condition → Ensures mayStop (second ()) state post') (stops : ¬ condition → mayStop) :
    Ensures mayStop (require reason condition >>= second) state post' := by
  by_cases met : condition
  · simpa only [Ensures, require, bind, Program.bind, if_pos met] using holds met
  · simpa only [Ensures, require, bind, Program.bind, if_neg met] using stops met

theorem ensures_read {second : State → Program State Failure Stop β}
    {post' : Except Failure β → State → Prop} (rest : Ensures mayStop (second state) state post') :
    Ensures mayStop (read >>= second) state post' :=
  rest

theorem ensures_modify {change : State → State} {second : Unit → Program State Failure Stop β}
    {post' : Except Failure β → State → Prop}
    (rest : Ensures mayStop (second ()) (change state) post') :
    Ensures mayStop (modify change >>= second) state post' :=
  rest

theorem ensures_modify_last {change : State → State} {post' : Except Failure Unit → State → Prop}
    (holds : post' (.ok ()) (change state)) :
    Ensures mayStop (modify change : Program State Failure Stop Unit) state post' :=
  holds

theorem ensures_attempt {post' : Except Failure (Except Failure α) → State → Prop}
    (ensures : Ensures mayStop program state fun result after => post' (.ok result) after) :
    Ensures mayStop (attempt program) state post' := by
  unfold Ensures attempt at *
  cases ran : program state with
  | error stop =>
      rw [ran] at ensures
      exact ensures
  | ok pair =>
      rw [ran] at ensures
      exact ensures

/-- Goes on with what the first program answered, a failure too. -/
theorem ensures_bind_attempt {second : Except Failure α → Program State Failure Stop β}
    {post' : Except Failure β → State → Prop} (tried : Ensures mayStop program state post)
    (rest : ∀ result after, post result after → Ensures mayStop (second result) after post') :
    Ensures mayStop (attempt program >>= second) state post' := by
  unfold Ensures at tried
  cases ran : program state with
  | error stop =>
      rw [ran] at tried
      simpa only [Ensures, attempt, bind, Program.bind, ran] using tried
  | ok pair =>
      obtain ⟨result, after⟩ := pair
      rw [ran] at tried
      have goesOn := rest result after tried
      simpa only [Ensures, attempt, bind, Program.bind, ran] using goesOn

/-! ## Answers -/

/-- Every value that the program can return, from any state, satisfies `P`. -/
structure Answers (program : Program State Failure Stop α) (P : α → Prop) : Prop where
  of_run : ∀ state value after, program state = .ok (.ok value, after) → P value

theorem Answers.weaken {P Q : α → Prop} (answers : Answers program P)
    (weaker : ∀ value, P value → Q value) : Answers program Q :=
  ⟨fun state value after ran => weaker value (answers.of_run state value after ran)⟩

theorem Answers.ensures {P : α → Prop} (answers : Answers program P) :
    Ensures True program state fun result _ => ∀ value, result = .ok value → P value := by
  unfold Ensures
  cases ran : program state with
  | error stop => trivial
  | ok pair =>
      rintro value isValue
      exact answers.of_run state value pair.2 (by rw [ran, ← isValue])

theorem answers_any : Answers program fun _ => True := ⟨fun _ _ _ _ => trivial⟩

theorem answers_pure {value : α} {P : α → Prop} (holds : P value) :
    Answers (pure value : Program State Failure Stop α) P := by
  constructor
  rintro _ _ _ ⟨⟩
  exact holds

theorem answers_bind {second : α → Program State Failure Stop β} {P : α → Prop} {Q : β → Prop}
    (first : Answers program P) (rest : ∀ value, P value → Answers (second value) Q) :
    Answers (program >>= second) Q := by
  constructor
  intro state value after ran
  simp only [bind, Program.bind] at ran
  cases ran' : program state with
  | error stop =>
      rw [ran'] at ran
      cases ran
  | ok pair =>
      obtain ⟨result, middle⟩ := pair
      rw [ran'] at ran
      cases result with
      | error failure => cases ran
      | ok found => exact (rest found (first.of_run _ _ _ ran')).of_run _ _ _ ran

theorem answers_then {second : α → Program State Failure Stop β} {Q : β → Prop}
    (rest : ∀ value, Answers (second value) Q) : Answers (program >>= second) Q :=
  answers_bind answers_any fun value _ => rest value

theorem answers_attempt {P : α → Prop} (answers : Answers program P) :
    Answers (attempt program) fun result => ∀ value, result = .ok value → P value := by
  constructor
  intro state result after ran value isValue
  subst isValue
  simp only [attempt] at ran
  cases ran' : program state with
  | error stop =>
      rw [ran'] at ran
      cases ran
  | ok pair =>
      obtain ⟨result, middle⟩ := pair
      rw [ran'] at ran
      simp only [Except.ok.injEq, Prod.mk.injEq] at ran
      obtain ⟨rfl, rfl⟩ := ran
      exact answers.of_run _ _ _ ran'

end Program

end UCore.Lib
