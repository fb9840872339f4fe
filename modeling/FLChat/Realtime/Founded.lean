import FLChat.Realtime.Values

/-!
# Writes that rely on what is there

Some writes store a value that meets `Q`, others change a part of one that does. A queue of writes
is `Founded` on a tree when each of the second kind finds a value by its turn. As long as every
queue is founded on the tree (`FoundedQueues`), every value that there is meets `Q`, and every value
that a client sees.

Issuing asks that what is issued is founded on what the client sees, and a rejection that what waits
behind it does not rely on it. Accepting a write keeps all queues founded.
-/

namespace Realtime

variable {Loc Client Cb Blob App Action : Type} [Schema Loc] [DecidableEq Loc]
  {Q : (l : Loc) → Val l → Prop} {t t' : Tree Loc} {op : Op Loc} {ops ops' : List (Op Loc)}

/-- The write puts something somewhere, and keeps `Q` where it holds. -/
def Op.Keeps (Q : (l : Loc) → Val l → Prop) : Op Loc → Prop
  | .update l v => ∀ old, Q l old → Q l (Schema.merge l v old)
  | .remove _ => False

/-- The write stores a value that meets `Q`, or finds one. -/
def Op.FoundedOn (Q : (l : Loc) → Val l → Prop) (t : Tree Loc) : Op Loc → Prop
  | .update l v => Q l v ∨ l ∈ t
  | .remove _ => True

/-- Each of the writes is founded by its turn. -/
def Founded (Q : (l : Loc) → Val l → Prop) : Tree Loc → List (Op Loc) → Prop
  | _, [] => True
  | t, op :: ops => op.FoundedOn Q t ∧ Founded Q (op.apply t) ops

/-- The tree after a number of writes. -/
def Tree.applyAll (t : Tree Loc) (ops : List (Op Loc)) : Tree Loc :=
  ops.foldl (fun t op => op.apply t) t

theorem Tree.All.apply_founded (h : t.All Q) (hkeeps : op.Keeps Q) (hfounded : op.FoundedOn Q t) :
    (op.apply t).All Q := by
  intro l v hv
  cases op with
  | remove p => exact hkeeps.elim
  | update l' v' =>
    have hv : (t.update l' v').lookup l = some v := hv
    by_cases hl : l = l'
    · subst hl
      rw [Tree.lookup_update_self] at hv
      cases hv
      unfold Tree.merged
      split
      · next hnone =>
        refine hfounded.resolve_right fun hmem => ?_
        rw [← AList.lookup_isSome, hnone] at hmem
        cases hmem
      · next old hold => exact hkeeps old (h _ _ hold)
    · rw [Tree.lookup_update_ne hl] at hv
      exact h l v hv

theorem Founded.all (hfounded : Founded Q t ops) (h : t.All Q) (hkeeps : ∀ op ∈ ops, op.Keeps Q) :
    (t.applyAll ops).All Q := by
  induction ops generalizing t with
  | nil => exact h
  | cons op ops ih =>
    exact ih hfounded.2 (h.apply_founded (hkeeps op List.mem_cons_self) hfounded.1)
      fun op' hop => hkeeps op' (List.mem_cons_of_mem _ hop)

theorem founded_append :
    Founded Q t (ops ++ ops') ↔ Founded Q t ops ∧ Founded Q (t.applyAll ops) ops' := by
  induction ops generalizing t with
  | nil => simp [Founded, Tree.applyAll]
  | cons op ops ih =>
    simp only [List.cons_append, Founded, ih, and_assoc]
    rfl

theorem mem_apply_mono (h : ∀ l ∈ t, l ∈ t') : ∀ l ∈ op.apply t, l ∈ op.apply t' := by
  intro l hl
  cases op with
  | update l' v => exact Tree.mem_update.2 ((Tree.mem_update.1 hl).imp_right (h l))
  | remove p => exact Tree.mem_remove.2 ((Tree.mem_remove.1 hl).imp_left (h l))

/-- What is there may grow. -/
theorem Founded.mono (hfounded : Founded Q t ops) (h : ∀ l ∈ t, l ∈ t') : Founded Q t' ops := by
  induction ops generalizing t t' with
  | nil => trivial
  | cons op ops ih =>
    refine ⟨?_, ih hfounded.2 (mem_apply_mono h)⟩
    cases op with
    | update l v => exact hfounded.1.imp_right (h l)
    | remove p => trivial

theorem mem_apply_of_keeps (hkeeps : op.Keeps Q) : ∀ l ∈ t, l ∈ op.apply t := by
  intro l hl
  cases op with
  | update l' v => exact Tree.mem_update.2 (.inr hl)
  | remove p => exact hkeeps.elim

/-- Writes that are founded as they come are founded one after the other. -/
theorem founded_of_forall (h : ∀ op ∈ ops, op.FoundedOn Q t ∧ op.Keeps Q) : Founded Q t ops := by
  induction ops generalizing t with
  | nil => trivial
  | cons op ops ih =>
    obtain ⟨hfounded, hkeeps⟩ := h op List.mem_cons_self
    refine ⟨hfounded, (ih fun op' hop => h op' (List.mem_cons_of_mem _ hop)).mono ?_⟩
    exact mem_apply_of_keeps hkeeps

instance [(l : Loc) → DecidablePred (Q l)] (t : Tree Loc) : DecidablePred (Op.FoundedOn Q t)
  | .update l v => inferInstanceAs (Decidable (Q l v ∨ l ∈ t))
  | .remove _ => isTrue trivial

instance Founded.decidable [(l : Loc) → DecidablePred (Q l)] :
    (t : Tree Loc) → DecidablePred (Founded Q t)
  | _, [] => isTrue trivial
  | t, op :: ops =>
    have := Founded.decidable (op.apply t) ops
    inferInstanceAs (Decidable (op.FoundedOn Q t ∧ Founded Q (op.apply t) ops))

/-! ## The queues of the clients -/

section Queues

variable [DecidableEq Client] {P : Program Loc Client Cb Blob App Action}
  {s s' : State Loc Client Cb Blob App Action} {c : Client} {i : ℕ} {w : Write Loc Client Cb}

/-- The writes of a client that wait. -/
def queueOf (c : Client) (writes : List (Write Loc Client Cb)) : List (Op Loc) :=
  (writes.filter fun w => decide (w.client = c)).map Write.op

def State.queue (s : State Loc Client Cb Blob App Action) (c : Client) : List (Op Loc) :=
  queueOf c s.writes

theorem view_eq : s.view c = s.tree.applyAll (s.queue c) := by
  simp only [State.view, Tree.applyAll, State.queue, queueOf, List.foldl_map]

omit [DecidableEq Loc] in
theorem queueOf_append (writes writes' : List (Write Loc Client Cb)) :
    queueOf c (writes ++ writes') = queueOf c writes ++ queueOf c writes' := by
  simp [queueOf]

/-- What a client issues, it sees. -/
theorem view_issue {cmds : List (Cmd Loc Cb Blob)} (htree : s'.tree = s.tree)
    (hwrites : s'.writes = s.writes ++ newWrites c cmds) :
    s'.view c = (s.view c).applyAll ((newWrites c cmds).map Write.op) := by
  have hall : (newWrites c cmds).filter (fun w => decide (w.client = c)) = newWrites c cmds :=
    List.filter_eq_self.2 fun w hw => decide_eq_true (mem_newWrites.1 hw).1
  rw [view_eq, view_eq, State.queue, State.queue, htree, hwrites, queueOf_append]
  simp only [Tree.applyAll, List.foldl_append, queueOf, hall]

omit [DecidableEq Loc] in
theorem mem_queueOf {writes : List (Write Loc Client Cb)} :
    op ∈ queueOf c writes ↔ ∃ w ∈ writes, w.client = c ∧ w.op = op := by
  simp [queueOf, and_assoc]

theorem eq_take_append {α : Type} {xs : List α} {x : α} (h : xs[i]? = some x) :
    xs = xs.take i ++ x :: xs.drop (i + 1) := by
  obtain ⟨hi, rfl⟩ := List.getElem?_eq_some_iff.1 h
  rw [List.getElem_cons_drop, List.take_append_drop]

omit [DecidableEq Loc] in
/-- The others' queues are what they were. -/
theorem queueOf_eraseIdx_ne (hw : s.writes[i]? = some w) (hc : w.client ≠ c) :
    queueOf c (s.writes.eraseIdx i) = s.queue c := by
  have he := congrArg (queueOf c) (eq_take_append hw)
  rw [State.queue, he, List.eraseIdx_eq_take_drop_succ, queueOf_append, queueOf_append]
  simp [queueOf, hc]

omit [DecidableEq Loc] in
/-- The write that is answered was the first of its client. -/
theorem queue_eq_cons (hw : s.writes[i]? = some w) (hfirst : s.FirstOfClient i w.client) :
    s.queue w.client = w.op :: queueOf w.client (s.writes.eraseIdx i) := by
  have he := congrArg (queueOf w.client) (eq_take_append hw)
  have hnone : queueOf w.client (s.writes.take i) = [] := by
    refine List.eq_nil_iff_forall_not_mem.2 fun op hop => ?_
    obtain ⟨w', hw', hc, -⟩ := mem_queueOf.1 hop
    exact hfirst w' hw' hc
  rw [State.queue, he, List.eraseIdx_eq_take_drop_succ, queueOf_append, queueOf_append, hnone]
  simp [queueOf]

/-- A client goes on seeing what the server accepts from it. -/
theorem view_applied (hw : s.writes[i]? = some w) (hfirst : s.FirstOfClient i w.client) :
    (s.applied i w).view w.client = s.view w.client := by
  rw [view_eq, view_eq, queue_eq_cons hw hfirst]
  rfl

omit [DecidableEq Loc] in
/-- A process that ends leaves no queue behind. -/
theorem queue_died {app : App} : (s.died c app).queue c = [] := by
  refine List.eq_nil_iff_forall_not_mem.2 fun op hop => ?_
  obtain ⟨w, hw, hwc, -⟩ := mem_queueOf.1 hop
  exact of_decide_eq_true (List.mem_filter.1 hw).2 hwc

omit [DecidableEq Loc] in
theorem queue_died_ne {app : App} {c' : Client} (hc : c' ≠ c) :
    (s.died c app).queue c' = s.queue c' := by
  have hboth : ∀ w : Write Loc Client Cb,
      (decide (w.client = c') && decide (w.client ≠ c)) = decide (w.client = c') := by
    intro w
    by_cases hw : w.client = c'
    · simp [hw, hc]
    · simp [hw]
  simp only [State.queue, queueOf, State.died_writes, List.filter_filter, hboth]

/-- Every value meets `Q`, and every queue is founded on the tree. -/
structure FoundedQueues (Q : (l : Loc) → Val l → Prop)
    (s : State Loc Client Cb Blob App Action) : Prop where
  tree : s.tree.All Q
  queues : ∀ c, Founded Q s.tree (s.queue c)
  keeps : ∀ w ∈ s.writes, w.op.Keeps Q

namespace FoundedQueues

variable (h : FoundedQueues Q s)
include h

/-- What a client sees meets `Q`. -/
theorem view (c : Client) : (s.view c).All Q := by
  rw [view_eq]
  refine (h.queues c).all h.tree fun op hop => ?_
  obtain ⟨w, hw, -, rfl⟩ := mem_queueOf.1 hop
  exact h.keeps w hw

theorem issue {cmds : List (Cmd Loc Cb Blob)} (htree : s'.tree = s.tree)
    (hwrites : s'.writes = s.writes ++ newWrites c cmds)
    (hnew : ∀ w ∈ newWrites c cmds, w.op.FoundedOn Q (s.view c) ∧ w.op.Keeps Q) :
    FoundedQueues Q s' where
  tree := htree ▸ h.tree
  queues c' := by
    have hqueue : s'.queue c' = s.queue c' ++ queueOf c' (newWrites c cmds) := by
      rw [State.queue, hwrites, queueOf_append]
      rfl
    rw [htree, hqueue, founded_append, ← view_eq]
    refine ⟨h.queues c', founded_of_forall fun op hop => ?_⟩
    obtain ⟨w, hw, hwc, rfl⟩ := mem_queueOf.1 hop
    obtain rfl : c' = c := hwc.symm.trans (mem_newWrites.1 hw).1
    exact hnew w hw
  keeps w hw := by
    rw [hwrites] at hw
    exact (List.mem_append.1 hw).elim (h.keeps w) fun hw => (hnew w hw).2

/-- Accepting the first write of a client keeps all queues founded. -/
theorem apply (hw : s.writes[i]? = some w) (hfirst : s.FirstOfClient i w.client) :
    FoundedQueues Q (s.applied i w) := by
  have hkeeps := h.keeps w (List.mem_of_getElem? hw)
  have hhead := h.queues w.client
  rw [queue_eq_cons hw hfirst] at hhead
  refine ⟨h.tree.apply_founded hkeeps hhead.1, fun c => ?_, fun w' hw' =>
    h.keeps w' (List.mem_of_mem_eraseIdx hw')⟩
  by_cases hc : w.client = c
  · subst hc
    exact hhead.2
  · have hqueue : (s.applied i w).queue c = s.queue c := queueOf_eraseIdx_ne hw hc
    rw [hqueue]
    exact (h.queues c).mono (mem_apply_of_keeps hkeeps)

/-- Rejecting a write asks that the ones behind it do not rely on it. -/
theorem reject (hw : s.writes[i]? = some w)
    (hrest : Founded Q s.tree (queueOf w.client (s.writes.eraseIdx i))) :
    FoundedQueues Q (s.rejected i w) := by
  refine ⟨h.tree, fun c => ?_, fun w' hw' => h.keeps w' (List.mem_of_mem_eraseIdx hw')⟩
  by_cases hc : w.client = c
  · subst hc
    exact hrest
  · have hqueue : (s.rejected i w).queue c = s.queue c := queueOf_eraseIdx_ne hw hc
    rw [hqueue]
    exact h.queues c

theorem die {app : App} : FoundedQueues Q (s.died c app) := by
  refine ⟨h.tree, fun c' => ?_, fun w hw => h.keeps w (List.mem_filter.1 hw).1⟩
  by_cases hc : c' = c
  · subst hc
    rw [queue_died]
    trivial
  · rw [queue_died_ne hc]
    exact h.queues c'

end FoundedQueues

end Queues

end Realtime
