import Mathlib.Tactic.Common

/-!
# Runs

The finite runs of a transition relation whose steps carry a label. A run stands for a whole
history: every prefix of a run is a run, so a property of the last state of every run is a property
of every state reached.
-/

namespace Lib

/-- `Run R s es t`: from `s`, the steps labelled `es` lead to `t`. -/
inductive Run {σ ε : Type*} (R : σ → ε → σ → Prop) : σ → List ε → σ → Prop
  | nil (s : σ) : Run R s [] s
  | cons {s t u : σ} {e : ε} {es : List ε} : R s e t → Run R t es u → Run R s (e :: es) u

variable {σ ε : Type*} {R : σ → ε → σ → Prop}

theorem Run.invariant {P : σ → Prop} (hstep : ∀ s e t, R s e t → P s → P t) {s t : σ}
    {es : List ε} (h : Run R s es t) (hs : P s) : P t := by
  induction h with
  | nil => exact hs
  | cons hr _ ih => exact ih (hstep _ _ _ hr hs)

theorem Run.append {s t u : σ} {es fs : List ε} (h₁ : Run R s es t) (h₂ : Run R t fs u) :
    Run R s (es ++ fs) u := by
  induction h₁ with
  | nil => exact h₂
  | cons hr _ ih => exact Run.cons hr (ih h₂)

/-- A run under a condition on its steps is a run. -/
theorem Run.mono {S : σ → ε → σ → Prop} (himp : ∀ s e t, R s e t → S s e t) {s t : σ}
    {es : List ε} (h : Run R s es t) : Run S s es t := by
  induction h with
  | nil s => exact Run.nil s
  | cons hr _ ih => exact Run.cons (himp _ _ _ hr) ih

/-- The same for the runs of a function: the states after the prefixes of a list of labels are all
good exactly if each label meets the condition where it comes. What else the good states of a run
have need only be kept from one good state to the next. -/
theorem forall_prefix_foldl_iff {next : σ → ε → σ} {P Q : σ → Prop} {ok : σ → ε → Prop}
    (hP : ∀ s e, P s → Q s → Q (next s e) → P (next s e))
    (hQ : ∀ s e, P s → Q s → (Q (next s e) ↔ ok s e)) {s : σ} (hp : P s) (hq : Q s)
    (es : List ε) :
    (∀ es', es' <+: es → Q (es'.foldl next s)) ↔
      ∀ es' e, es' ++ [e] <+: es → ok (es'.foldl next s) e := by
  induction es generalizing s with
  | nil =>
    constructor
    · intro _ es' e hpre
      simp at hpre
    · intro _ es' hpre
      rw [List.prefix_nil.1 hpre]
      exact hq
  | cons e es ih =>
    constructor
    · intro hall
      have hnext : Q (next s e) := hall [e] (List.cons_prefix_cons.2 ⟨rfl, List.nil_prefix⟩)
      have hrest := (ih (hP s e hp hq hnext) hnext).1 fun es' hpre =>
        hall (e :: es') (List.cons_prefix_cons.2 ⟨rfl, hpre⟩)
      intro es' f hpre
      cases es' with
      | nil =>
        obtain ⟨rfl, -⟩ := List.cons_prefix_cons.1 hpre
        exact (hQ s f hp hq).1 hnext
      | cons g es' =>
        obtain ⟨rfl, hpre'⟩ := List.cons_prefix_cons.1 hpre
        exact hrest es' f hpre'
    · intro hall
      have hok : ok s e := hall [] e (List.cons_prefix_cons.2 ⟨rfl, List.nil_prefix⟩)
      have hnext : Q (next s e) := (hQ s e hp hq).2 hok
      have hrest := (ih (hP s e hp hq hnext) hnext).2 fun es' f hpre =>
        hall (e :: es') f (List.cons_prefix_cons.2 ⟨rfl, hpre⟩)
      intro es' hpre
      cases es' with
      | nil => exact hq
      | cons g es' =>
        obtain ⟨rfl, hpre'⟩ := List.cons_prefix_cons.1 hpre
        exact hrest es' hpre'

/-- What a step keeps that meets a condition holds after every prefix of a run whose steps all meet
it. -/
theorem forall_prefix_foldl {next : σ → ε → σ} {Q : σ → Prop} {ok : σ → ε → Prop}
    (hQ : ∀ s e, Q s → ok s e → Q (next s e)) {s : σ} (hs : Q s) {es : List ε}
    (hes : ∀ es' e, es' ++ [e] <+: es → ok (es'.foldl next s) e) :
    ∀ es', es' <+: es → Q (es'.foldl next s) := by
  induction es generalizing s with
  | nil =>
    intro es' hpre
    rw [List.prefix_nil.1 hpre]
    exact hs
  | cons a es ih =>
    intro es' hpre
    cases es' with
    | nil => exact hs
    | cons b es' =>
      obtain ⟨rfl, hpre'⟩ := List.cons_prefix_cons.1 hpre
      have hnext : Q (next s b) :=
        hQ s b hs (hes [] b (List.cons_prefix_cons.2 ⟨rfl, List.nil_prefix⟩))
      refine ih hnext (fun fs f hf => ?_) es' hpre'
      exact hes (b :: fs) f (List.cons_prefix_cons.2 ⟨rfl, hf⟩)

/-- The steps of a run all meet a condition if the first one does and those of the rest do. -/
theorem forall_prefix_cons {next : σ → ε → σ} {ok : σ → ε → Prop} {s : σ} {a : ε} {es : List ε}
    (ha : ok s a) (hes : ∀ es' e, es' ++ [e] <+: es → ok (es'.foldl next (next s a)) e) :
    ∀ es' e, es' ++ [e] <+: a :: es → ok (es'.foldl next s) e := by
  intro es' e hpre
  cases es' with
  | nil =>
    obtain ⟨rfl, -⟩ := List.cons_prefix_cons.1 hpre
    exact ha
  | cons b es' =>
    obtain ⟨rfl, hpre'⟩ := List.cons_prefix_cons.1 hpre
    exact hes es' e hpre'

theorem forall_prefix_nil {next : σ → ε → σ} {ok : σ → ε → Prop} {s : σ} :
    ∀ es' e, es' ++ [e] <+: [] → ok (es'.foldl next s) e := by
  intro es' e hpre
  simp at hpre

/-- Whether each of a list of labels passes a test in the state where it comes. -/
def follows (ok : ε → σ → Bool) (next : ε → σ → σ) : σ → List ε → Bool
  | _, [] => true
  | s, e :: es => ok e s && follows ok next (next e s) es

theorem run_of_follows (ok : ε → σ → Bool) {next : ε → σ → σ}
    (hstep : ∀ e s, ok e s = true → R s e (next e s)) (es : List ε) (s : σ)
    (h : follows ok next s es = true) : Run R s es (es.foldl (fun s e => next e s) s) := by
  induction es generalizing s with
  | nil => exact Run.nil s
  | cons e es ih =>
    rw [follows, Bool.and_eq_true] at h
    exact Run.cons (hstep e s h.1) (ih _ h.2)

end Lib
