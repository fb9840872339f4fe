import FLChat.Realtime.Progress

/-!
# What a client sees

A client sees the tree with its own queued writes in it (`State.view`). Let every write of a
program keep a property `Q` of the tree, or bring it about. Then a client sees `Q` exactly when the
tree has it or one of its own writes that wait brings it about (`view_iff`), and it goes on seeing
it as long as its process runs and the server accepts every write (`view_step`).
-/

namespace Realtime

variable {Loc Client Cb Blob App Action : Type} [Schema Loc] [DecidableEq Loc]
  [DecidableEq Client] {P : Program Loc Client Cb Blob App Action}
  {s s' : State Loc Client Cb Blob App Action} {l : Label Client Action} {c : Client}

section Gives

variable {Q : Tree Loc → Prop} {gives allowed : Op Loc → Prop}
  (hop : ∀ op, allowed op → ∀ t, Q (op.apply t) ↔ Q t ∨ gives op)
include hop

omit [DecidableEq Client] in
theorem foldl_iff {ws : List (Write Loc Client Cb)} (h : ∀ w ∈ ws, allowed w.op) (t : Tree Loc) :
    Q (ws.foldl (fun t w => w.op.apply t) t) ↔ Q t ∨ ∃ w ∈ ws, gives w.op := by
  induction ws generalizing t with
  | nil => simp
  | cons w ws ih =>
    rw [List.foldl_cons, ih (fun w hw => h w (List.mem_cons_of_mem _ hw)),
      hop w.op (h w List.mem_cons_self)]
    simp only [List.mem_cons, exists_eq_or_imp, or_assoc]

theorem view_iff (h : ∀ w ∈ s.writes, allowed w.op) :
    Q (s.view c) ↔ Q s.tree ∨ ∃ w ∈ s.writes, w.client = c ∧ gives w.op := by
  rw [State.view, foldl_iff hop fun w hw => h w (List.mem_filter.1 hw).1]
  simp only [List.mem_filter, decide_eq_true_eq, and_assoc]

/-- A client goes on seeing what it sees. -/
theorem view_step (h : ∀ w ∈ s.writes, allowed w.op) (h' : ∀ w ∈ s'.writes, allowed w.op)
    (hs : Transition P s l s') (hcommit : ∀ i, l ≠ .commit i false) (hdie : l ≠ .die c)
    (hQ : Q (s.view c)) : Q (s'.view c) := by
  rw [view_iff hop h] at hQ
  rw [view_iff hop h']
  cases hs with
  | press | run =>
    exact hQ.imp_right fun ⟨w, hw, hc, hgives⟩ => ⟨w, List.mem_append_left _ hw, hc, hgives⟩
  | @apply i w hw hfirst =>
    have happly := hop w.op (h w (List.mem_of_getElem? hw)) s.tree
    rcases hQ with hQ | ⟨w', hw', hc, hgives⟩
    · exact .inl (happly.2 (.inl hQ))
    · rcases mem_eraseIdx_or hw hw' with rfl | hw'
      · exact .inl (happly.2 (.inr hgives))
      · exact .inr ⟨w', hw', hc, hgives⟩
  | reject => exact absurd rfl (hcommit _)
  | serve => exact hQ
  | die =>
    refine hQ.imp_right fun ⟨w, hw, hc, hgives⟩ => ⟨w, List.mem_filter.2 ⟨hw, ?_⟩, hc, hgives⟩
    exact decide_eq_true fun he => hdie (by rw [← hc, he])

end Gives

end Realtime
