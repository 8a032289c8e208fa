import Mathlib.Logic.Relation

/-! # Runs of a transition system

A system is a step relation; a run is its reflexive transitive closure. An invariant is established
once, from the step, and then holds along every run. -/

namespace HardStack.Lib.Run

open Relation

variable {σ ε : Type*} {step : σ → σ → Prop}

/-- **The invariant rule.** What holds at the start and is kept by a step holds along a run. -/
theorem invariant {I : σ → Prop} {s t : σ} (h0 : I s) (hstep : ∀ a b, I a → step a b → I b)
    (hr : ReflTransGen step s t) : I t := by
  induction hr with
  | refl => exact h0
  | tail _ hst ih => exact hstep _ _ ih hst

/-! ### Runs of events -/

/-- Every event of a run meets a condition in the state where it comes; a run may break off. -/
def Along (exec : σ → ε → Option σ) (P : σ → ε → Prop) : List ε → σ → Prop
  | [], _ => True
  | e :: es, s => P s e ∧ ∀ s', exec s e = some s' → Along exec P es s'

variable {exec : σ → ε → Option σ} {P Q : σ → ε → Prop}

/-- Two conditions agree along runs if they agree under an invariant that the one keeps. -/
theorem along_iff {I : σ → Prop} (hiff : ∀ s e, I s → (P s e ↔ Q s e))
    (hkeep : ∀ s e s', I s → Q s e → exec s e = some s' → I s') :
    ∀ {es : List ε} {s : σ}, I s → (Along exec P es s ↔ Along exec Q es s)
  | [], _, _ => Iff.rfl
  | e :: es, s, h => by
    constructor
    · rintro ⟨hp, hrest⟩
      have hq := (hiff s e h).mp hp
      exact ⟨hq, fun s' hs' => (along_iff hiff hkeep (hkeep s e s' h hq hs')).mp (hrest s' hs')⟩
    · rintro ⟨hq, hrest⟩
      exact ⟨(hiff s e h).mpr hq,
        fun s' hs' => (along_iff hiff hkeep (hkeep s e s' h hq hs')).mpr (hrest s' hs')⟩

/-- A run stays in a state that the events which meet the condition do not leave. -/
theorem along_still {s : σ} (hstill : ∀ e, P s e → exec s e = some s) :
    ∀ {es : List ε}, Along exec P es s ↔ ∀ e ∈ es, P s e
  | [] => iff_of_true trivial fun _ h => absurd h List.not_mem_nil
  | e :: es => by
    rw [List.forall_mem_cons]
    refine and_congr_right fun hp => ?_
    rw [← along_still hstill]
    constructor
    · exact fun hrest => hrest s (hstill e hp)
    · intro hrest s' hs'
      rw [hstill e hp] at hs'
      cases hs'
      exact hrest

end HardStack.Lib.Run
