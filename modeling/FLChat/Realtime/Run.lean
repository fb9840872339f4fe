import Mathlib.Logic.Basic

/-!
# Runs of a partial step function

A system is a step function `S → L → Option S`: at a label it moves to the next state, or the
label is not possible there. A run takes labels one after the other, and `ok` says which labels a
class of runs may take in which states ("every write succeeds", "no accept is pressed"). An
inductive invariant holds in every state of such a run (`Reaches.invariant`).
-/

namespace Realtime

variable {S L : Type} {step : S → L → Option S}

/-- `t` is reached from `s` by steps each of which meets `ok` in the state it is taken in. -/
inductive Reaches (step : S → L → Option S) (ok : S → L → Prop) (s : S) : S → Prop
  | refl : Reaches step ok s s
  | tail {t u : S} {l : L} : Reaches step ok s t → ok t l → step t l = some u →
      Reaches step ok s u

namespace Reaches

variable {ok ok' : S → L → Prop} {s t u : S}

theorem trans (h₁ : Reaches step ok s t) (h₂ : Reaches step ok t u) : Reaches step ok s u := by
  induction h₂ with
  | refl => exact h₁
  | tail _ hok hs ih => exact ih.tail hok hs

/-- A run of a class is a run of every wider class. -/
theorem mono (hok : ∀ s l, ok s l → ok' s l) (h : Reaches step ok s t) :
    Reaches step ok' s t := by
  induction h with
  | refl => exact .refl
  | tail _ h hs ih => exact ih.tail (hok _ _ h) hs

/-- What holds at the start and is preserved by every step of the class holds in every state
reached. -/
theorem invariant {I : S → Prop} (h : Reaches step ok s t) (h₀ : I s)
    (hstep : ∀ {t l u}, I t → ok t l → step t l = some u → I u) : I t := by
  induction h with
  | refl => exact h₀
  | tail _ hok hs ih => exact hstep ih hok hs

/-- The rule with the states of the run at hand: a step may use that it is taken in a state
reached. -/
theorem invariant_of_reached {I : S → Prop} (h : Reaches step ok s t) (h₀ : I s)
    (hstep : ∀ {t l u}, Reaches step ok s t → I t → ok t l → step t l = some u → I u) : I t := by
  induction h with
  | refl => exact h₀
  | tail ht hok hs ih => exact hstep ht ih hok hs

/-- What holds at the end, and before every step after which it holds, held all along. -/
theorem of_end {I : S → Prop} (h : Reaches step ok s t) (ht : I t)
    (hstep : ∀ {t l u}, Reaches step ok s t → ok t l → step t l = some u → I u → I t) :
    Reaches step (fun s l => ok s l ∧ I s ∧ ∀ u ∈ step s l, I u) s t := by
  induction h with
  | refl => exact .refl
  | tail hrun hok hs ih =>
    have hI := hstep hrun hok hs ht
    refine (ih hI).tail ⟨hok, hI, fun u hu => ?_⟩ hs
    rw [hs] at hu
    exact Option.some.inj hu ▸ ht

end Reaches

/-- The last of its kind in a log. -/
theorem findSome?_cons_or {α β : Type} (f : α → Option β) (x : α) (xs : List α) :
    (x :: xs).findSome? f = (f x).or (xs.findSome? f) := by
  rw [List.findSome?_cons]
  cases f x <;> rfl

/-- The run that takes the given labels, if it meets `ok` all the way. -/
def exec (step : S → L → Option S) (ok : S → L → Prop) [∀ s l, Decidable (ok s l)] (s : S) :
    List L → Option S
  | [] => some s
  | l :: ls => if ok s l then (step s l).bind (exec step ok · ls) else none

theorem Reaches.of_exec {ok : S → L → Prop} [∀ s l, Decidable (ok s l)] {ls : List L} {s t : S}
    (h : exec step ok s ls = some t) : Reaches step ok s t := by
  induction ls generalizing s with
  | nil =>
    simp only [exec, Option.some.injEq] at h
    exact h ▸ .refl
  | cons l ls ih =>
    simp only [exec] at h
    split at h
    · next hok =>
      obtain ⟨u, hu, hrun⟩ := Option.bind_eq_some_iff.1 h
      exact (Reaches.refl.tail hok hu).trans (ih hrun)
    · cases h

end Realtime
