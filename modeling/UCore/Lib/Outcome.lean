import UCore.Lib.Program

/-!
Contract: what a program leaves, and the reasons for which it may stop.

Owns:
- `Meets`, which allows a program to stop for some reasons only;
- one rule for each way of building a program;
- its relation to `Ensures`.

Does not own: any particular state, failure or reason.
-/

set_option autoImplicit false

namespace UCore.Lib.Program

variable {State Failure Stop α β : Type}

/-- Where the program returns, `post` holds of its result and the state it leaves; where it stops,
`stops` holds of the reason. -/
def Meets (stops : Stop → Prop) (program : Program State Failure Stop α) (state : State)
    (post : Except Failure α → State → Prop) : Prop :=
  match program state with
  | .error reason => stops reason
  | .ok (result, after) => post result after

variable {stops : Stop → Prop} {state : State} {program : Program State Failure Stop α}
  {post : Except Failure α → State → Prop}

theorem Meets.of_ok {result : Except Failure α} {after : State}
    (meets : Meets stops program state post) (ran : program state = .ok (result, after)) :
    post result after := by
  simpa only [Meets, ran] using meets

theorem Meets.of_stop {reason : Stop} (meets : Meets stops program state post)
    (ran : program state = .error reason) : stops reason := by
  simpa only [Meets, ran] using meets

theorem meets_of_run {result : Except Failure α} {after : State}
    (ran : program state = .ok (result, after)) (holds : post result after) :
    Meets stops program state post := by
  simpa only [Meets, ran] using holds

theorem meets_of_cases
    (returns : ∀ result after, program state = .ok (result, after) → post result after)
    (reasons : ∀ reason, program state = .error reason → stops reason) :
    Meets stops program state post := by
  unfold Meets
  cases ran : program state with
  | error reason => exact reasons reason ran
  | ok pair => exact returns pair.1 pair.2 ran

theorem Meets.weaken {stops' : Stop → Prop} {post' : Except Failure α → State → Prop}
    (meets : Meets stops program state post) (reasons : ∀ reason, stops reason → stops' reason)
    (weaker : ∀ result after, post result after → post' result after) :
    Meets stops' program state post' :=
  meets_of_cases (fun _ _ ran => weaker _ _ (meets.of_ok ran))
    fun _ ran => reasons _ (meets.of_stop ran)

/-- What is left, with the run that leaves it. -/
theorem Meets.withRun (meets : Meets stops program state post) :
    Meets stops program state fun result after =>
      program state = .ok (result, after) ∧ post result after :=
  meets_of_cases (fun _ _ ran => ⟨ran, meets.of_ok ran⟩) fun _ ran => meets.of_stop ran

/-! ## Known runs -/

theorem bind_run {second : α → Program State Failure Stop β} {value : α} {after : State}
    (ran : program state = .ok (.ok value, after)) :
    (program >>= second) state = second value after := by
  simp only [bind, Program.bind, ran]

theorem require_run {reason : Stop} {condition : Prop} [Decidable condition] (holds : condition) :
    (require reason condition : Program State Failure Stop Unit) state = .ok (.ok (), state) := by
  simp only [require, if_pos holds]

/-! ## Rules -/

theorem meets_pure {value : α} (holds : post (.ok value) state) :
    Meets stops (pure value : Program State Failure Stop α) state post :=
  holds

theorem meets_fail {failure : Failure} (holds : post (.error failure) state) :
    Meets stops (fail failure : Program State Failure Stop α) state post :=
  holds

theorem meets_bind {second : α → Program State Failure Stop β}
    {post' : Except Failure β → State → Prop} (first : Meets stops program state post)
    (goesOn : ∀ value after, post (.ok value) after → Meets stops (second value) after post')
    (fails : ∀ failure after, post (.error failure) after → post' (.error failure) after) :
    Meets stops (program >>= second) state post' := by
  unfold Meets at first
  cases ran : program state with
  | error stop =>
      rw [ran] at first
      simpa only [Meets, bind, Program.bind, ran] using first
  | ok pair =>
      obtain ⟨result, after⟩ := pair
      rw [ran] at first
      cases result with
      | error failure => simpa only [Meets, bind, Program.bind, ran] using fails failure after first
      | ok value =>
          have rest := goesOn value after first
          simpa only [Meets, bind, Program.bind, ran] using rest

/-- The first program is known to return a value. -/
theorem meets_bind_run {second : α → Program State Failure Stop β} {value : α} {after : State}
    {post' : Except Failure β → State → Prop} (ran : program state = .ok (.ok value, after))
    (rest : Meets stops (second value) after post') :
    Meets stops (program >>= second) state post' := by
  simpa only [Meets, bind, Program.bind, ran] using rest

theorem meets_require {reason : Stop} {condition : Prop} [Decidable condition]
    {second : Unit → Program State Failure Stop β} {post' : Except Failure β → State → Prop}
    (holds : condition → Meets stops (second ()) state post')
    (fails : ¬ condition → stops reason) :
    Meets stops (require reason condition >>= second) state post' := by
  by_cases met : condition
  · simpa only [Meets, require, bind, Program.bind, if_pos met] using holds met
  · simpa only [Meets, require, bind, Program.bind, if_neg met] using fails met

theorem meets_require_last {reason : Stop} {condition : Prop} [Decidable condition]
    {post' : Except Failure Unit → State → Prop} (holds : condition → post' (.ok ()) state)
    (fails : ¬ condition → stops reason) :
    Meets stops (require reason condition : Program State Failure Stop Unit) state post' := by
  by_cases met : condition
  · simpa only [Meets, require, if_pos met] using holds met
  · simpa only [Meets, require, if_neg met] using fails met

theorem meets_read {second : State → Program State Failure Stop β}
    {post' : Except Failure β → State → Prop} (rest : Meets stops (second state) state post') :
    Meets stops (read >>= second) state post' :=
  rest

theorem meets_modify {change : State → State} {second : Unit → Program State Failure Stop β}
    {post' : Except Failure β → State → Prop}
    (rest : Meets stops (second ()) (change state) post') :
    Meets stops (modify change >>= second) state post' :=
  rest

theorem meets_modify_last {change : State → State} {post' : Except Failure Unit → State → Prop}
    (holds : post' (.ok ()) (change state)) :
    Meets stops (modify change : Program State Failure Stop Unit) state post' :=
  holds

/-- Goes on with what the first program answered, a failure too. -/
theorem meets_bind_attempt {second : Except Failure α → Program State Failure Stop β}
    {post' : Except Failure β → State → Prop} (tried : Meets stops program state post)
    (rest : ∀ result after, post result after → Meets stops (second result) after post') :
    Meets stops (attempt program >>= second) state post' := by
  unfold Meets at tried
  cases ran : program state with
  | error stop =>
      rw [ran] at tried
      simpa only [Meets, attempt, bind, Program.bind, ran] using tried
  | ok pair =>
      obtain ⟨result, after⟩ := pair
      rw [ran] at tried
      have goesOn := rest result after tried
      simpa only [Meets, attempt, bind, Program.bind, ran] using goesOn

end UCore.Lib.Program
