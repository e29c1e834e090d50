import IndentMarkup.Proofs.Evaluating

/-! Two evaluations side by side, perhaps by different builders. Both are run from states in a
relation; they end alike if both succeed, or both fail with the same error. -/
namespace IndentMarkup.Evaluate

variable {σ ν σ' ν' β γ δ ε : Type}

/-- How two runs end alike: with results and states in the relation `Q`, or with one error and
states in the relation `fault`. -/
inductive Alike (fault : EvaluationState σ ν → EvaluationState σ' ν' → Prop)
    (Q : β → γ → EvaluationState σ ν → EvaluationState σ' ν' → Prop) :
    Except EvaluationError β × EvaluationState σ ν →
      Except EvaluationError γ × EvaluationState σ' ν' → Prop
  | success {first : β} {second : γ} {s : EvaluationState σ ν} {t : EvaluationState σ' ν'}
      (h : Q first second s t) : Alike fault Q (.ok first, s) (.ok second, t)
  | failure {error : EvaluationError} {s : EvaluationState σ ν} {t : EvaluationState σ' ν'}
      (h : fault s t) : Alike fault Q (.error error, s) (.error error, t)

/-- From states in the relation `P`, two computations end alike. -/
def Related (fault P : EvaluationState σ ν → EvaluationState σ' ν' → Prop)
    (first : Evaluate σ ν β) (second : Evaluate σ' ν' γ)
    (Q : β → γ → EvaluationState σ ν → EvaluationState σ' ν' → Prop) : Prop :=
  ∀ s t, P s t → Alike fault Q (first s) (second t)

variable {fault P : EvaluationState σ ν → EvaluationState σ' ν' → Prop}
  {Q : β → γ → EvaluationState σ ν → EvaluationState σ' ν' → Prop}

theorem related_pure {first : β} {second : γ} (h : ∀ s t, P s t → Q first second s t) :
    Related fault P (pure first) (pure second) Q :=
  fun s t hbefore => .success (h s t hbefore)

theorem Related.bind {first : Evaluate σ ν β} {second : Evaluate σ' ν' γ}
    {next : β → Evaluate σ ν δ} {other : γ → Evaluate σ' ν' ε}
    {last : δ → ε → EvaluationState σ ν → EvaluationState σ' ν' → Prop}
    (hfirst : Related fault P first second Q)
    (hnext : ∀ x y, Related fault (Q x y) (next x) (other y) last) :
    Related fault P (first >>= next) (second >>= other) last := by
  intro s t hbefore
  have halike := hfirst s t hbefore
  rw [bind_apply, bind_apply]
  generalize first s = run at halike ⊢
  generalize second t = run' at halike ⊢
  cases halike with
  | success h => exact hnext _ _ _ _ h
  | failure h => exact .failure h

/-- Both computations look at their contexts and go on. -/
theorem related_ask {look : Context ν → β} {look' : Context ν' → γ} {next : β → Evaluate σ ν δ}
    {other : γ → Evaluate σ' ν' ε}
    {last : δ → ε → EvaluationState σ ν → EvaluationState σ' ν' → Prop}
    (h : ∀ s t, P s t →
      Alike fault last (next (look s.context) s) (other (look' t.context) t)) :
    Related fault P (ask look >>= next) (ask look' >>= other) last :=
  fun s t hbefore => h s t hbefore

/-- Two loops over the same items keep what each pair of steps keeps. -/
theorem related_each {step : β → Evaluate σ ν Unit} {step' : β → Evaluate σ' ν' Unit}
    {items : List β}
    (hstep : ∀ item ∈ items, Related fault P (step item) (step' item) fun _ _ => P) :
    Related fault P (each step items) (each step' items) fun _ _ => P := by
  induction items with
  | nil => exact related_pure fun _ _ h => h
  | cons item rest ih =>
    obtain ⟨hitem, hrest⟩ := List.forall_mem_cons.mp hstep
    exact hitem.bind fun _ _ => ih hrest

end IndentMarkup.Evaluate
