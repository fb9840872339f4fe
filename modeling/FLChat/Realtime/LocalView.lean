import FLChat.Realtime.Founded

/-!
# What a client's own writes do to its events

The machine tells a child observer what the server adds when it adds it. The SDK tells it what
appears in the view of its own client, in which the client's queued writes count: what an own write
adds is told when it is issued, what others add below a queued removal is not told at all
(`shadowingWriteAtPath`), and what a rejected removal had hidden is told again
(`revertUserWriteOn`). `State.appears` is the SDK's rule. The two rules agree in every step in which
the client has nothing queued that reaches the observed path (`appears_iff`). Where it has, an own
write that the server accepts tells nothing more (`not_appears_of_own`), and below a queued removal
nothing is told (`not_appears_of_shadowed`).
-/

namespace Realtime

variable {Loc Client Cb Blob App Action : Type} [Schema Loc] {op : Op Loc} {p q : Path}
  {t : Tree Loc} {k : String}

/-- The write changes nothing at or below `p`. -/
def Op.LeavesAlone (p : Path) : Op Loc → Prop
  | .update l _ => ¬ p <+: path l
  | .remove q => ¬ q <+: p ∧ ¬ p <+: q

instance : DecidablePred (Op.LeavesAlone p : Op Loc → Prop)
  | .update l _ => inferInstanceAs (Decidable (¬ p <+: path l))
  | .remove q => inferInstanceAs (Decidable (¬ q <+: p ∧ ¬ p <+: q))

variable [DecidableEq Loc]

theorem Op.LeavesAlone.mem_children_apply (h : op.LeavesAlone p) :
    k ∈ (op.apply t).children p ↔ k ∈ t.children p := by
  cases op with
  | update l v =>
    refine Tree.mem_children_update.trans (or_iff_right fun hk => ?_)
    exact h (Tree.prefix_of_childKey hk)
  | remove q =>
    refine ⟨Tree.mem_children_of_remove, fun hk => ?_⟩
    obtain ⟨l, hl, hkey⟩ := Tree.mem_children.1 hk
    refine Tree.mem_children.2 ⟨l, Tree.mem_remove.2 ⟨hl, fun hq => ?_⟩, hkey⟩
    have hp := Tree.prefix_of_childKey hkey
    exact (List.prefix_or_prefix_of_prefix hq hp).elim h.1 h.2

theorem mem_children_applyAll {ops : List (Op Loc)} (h : ∀ op ∈ ops, op.LeavesAlone p) :
    k ∈ (t.applyAll ops).children p ↔ k ∈ t.children p := by
  induction ops generalizing t with
  | nil => exact Iff.rfl
  | cons op ops ih =>
    have hops := ih (t := op.apply t) fun op' hop => h op' (List.mem_cons_of_mem _ hop)
    exact hops.trans (h op List.mem_cons_self).mem_children_apply

/-- What a removal takes away stays away unless it is written again. -/
theorem not_mem_children_applyAll {ops : List (Op Loc)}
    (h : ∀ op ∈ ops, ∀ l v, op = .update l v → Tree.childKey p l ≠ some k)
    (hk : k ∉ t.children p) : k ∉ (t.applyAll ops).children p := by
  induction ops generalizing t with
  | nil => exact hk
  | cons op ops ih =>
    refine ih (fun op' hop => h op' (List.mem_cons_of_mem _ hop)) fun hmem => hk ?_
    cases op with
    | update l v =>
      have hne := h _ List.mem_cons_self l v rfl
      exact (Tree.mem_children_update.1 hmem).resolve_left hne
    | remove q => exact Tree.mem_children_of_remove hmem

theorem not_mem_children_remove (hq : q <+: p) : k ∉ (t.remove q).children p := by
  intro hk
  obtain ⟨l, hl, hkey⟩ := Tree.mem_children.1 hk
  exact (Tree.mem_remove.1 hl).2 (hq.trans (Tree.prefix_of_childKey hkey))

/-! ## Two rules for the events -/

section Events

variable [DecidableEq Client] {P : Program Loc Client Cb Blob App Action}
  {s s' : State Loc Client Cb Blob App Action} {l : Label Client Action} {c : Client}
  {o : ChildObserver Client Cb} {i : ℕ} {w : Write Loc Client Cb}

/-- The rule of the SDK: the observer is told of `k` when it appears in its client's view. -/
def State.appears (s s' : State Loc Client Cb Blob App Action) (o : ChildObserver Client Cb)
    (k : String) : Prop :=
  k ∉ (s.view o.client).children o.path ∧ k ∈ (s'.view o.client).children o.path

omit [DecidableEq Loc] [DecidableEq Client] in
/-- The rule of the machine: the observer is told of `k` when the server adds it. -/
def State.adds (s : State Loc Client Cb Blob App Action) (o : ChildObserver Client Cb)
    (k : String) : Op Loc → Prop
  | .update l _ => Tree.childKey o.path l = some k ∧ k ∉ s.tree.children o.path
  | .remove _ => False

omit [DecidableEq Loc] [DecidableEq Client] in
theorem mem_childEvents_iff {t : Task Loc Client Cb} : t ∈ s.childEvents op ↔
    ∃ o ∈ s.childObs, ∃ k, s.adds o k op ∧ t = ⟨o.client, o.cb, .childAdded k⟩ := by
  rw [mem_childEvents]
  refine exists_congr fun o => and_congr_right fun _ => ?_
  constructor
  · rintro ⟨l, v, k, rfl, hkey, hnew, rfl⟩
    exact ⟨k, ⟨hkey, hnew⟩, rfl⟩
  · rintro ⟨k, hadds, rfl⟩
    cases op with
    | update l v => exact ⟨l, v, k, rfl, hadds.1, hadds.2, rfl⟩
    | remove => exact hadds.elim

/-- Nothing that client `c` has queued reaches `p`. -/
def State.Undisturbed (s : State Loc Client Cb Blob App Action) (c : Client) (p : Path) : Prop :=
  ∀ w ∈ s.writes, w.client = c → w.op.LeavesAlone p

/-- Where nothing reaches the path, a client sees what the server has. So a new observer is told the
same by either rule. -/
theorem mem_children_view (h : s.Undisturbed c p) :
    k ∈ (s.view c).children p ↔ k ∈ s.tree.children p := by
  rw [view_eq]
  refine mem_children_applyAll fun op hop => ?_
  obtain ⟨w, hw, hc, rfl⟩ := mem_queueOf.1 hop
  exact h w hw hc

/-- Where nothing that the client has queued reaches the path, both rules agree on a write. -/
theorem appears_applied_iff (h : s.Undisturbed o.client o.path)
    (h' : (s.applied i w).Undisturbed o.client o.path) :
    s.appears (s.applied i w) o k ↔ s.adds o k w.op := by
  rw [State.appears, mem_children_view h, mem_children_view h', State.applied_tree]
  cases w.op with
  | update l v =>
    change _ ∧ k ∈ (s.tree.update l v).children o.path ↔ _
    rw [Tree.mem_children_update, State.adds]
    exact ⟨fun ⟨hnew, hk⟩ => ⟨hk.resolve_right hnew, hnew⟩, fun ⟨hk, hnew⟩ => ⟨hnew, .inl hk⟩⟩
  | remove q => exact iff_of_false (fun hk => hk.1 (Tree.mem_children_of_remove hk.2)) id

/-- They agree on every step: nothing but an accepted write tells anything. -/
theorem appears_iff (hs : Transition P s l s') (h : s.Undisturbed o.client o.path)
    (h' : s'.Undisturbed o.client o.path) : s.appears s' o k ↔
      ∃ i w, l = .commit i true ∧ s.writes[i]? = some w ∧ s.adds o k w.op := by
  cases hs with
  | @apply i w hw hfirst =>
    refine (appears_applied_iff h h').trans ⟨fun hk => ⟨i, w, rfl, hw, hk⟩, ?_⟩
    rintro ⟨j, w', he, hw', hk⟩
    cases he
    cases hw.symm.trans hw'
    exact hk
  | press | run | reject | serve | die =>
    rw [State.appears, mem_children_view h, mem_children_view h']
    refine iff_of_false (fun hk => hk.1 hk.2) ?_
    rintro ⟨i, w, he, -⟩
    cases he

/-- What an own write adds was told when it was issued. -/
theorem not_appears_of_own (hw : s.writes[i]? = some w) (hfirst : s.FirstOfClient i w.client)
    (hown : w.client = o.client) : ¬ s.appears (s.applied i w) o k := by
  rw [State.appears, ← hown, view_applied hw hfirst]
  exact fun hk => hk.1 hk.2

/-- Below a removal that waits nothing is told, whatever others add, unless the client itself writes
it again. -/
theorem not_appears_of_shadowed {before after : List (Op Loc)}
    (hqueue : s'.queue o.client = before ++ .remove q :: after) (hq : q <+: o.path)
    (hafter : ∀ op ∈ after, ∀ l v, op = .update l v → Tree.childKey o.path l ≠ some k) :
    ¬ s.appears s' o k := by
  rintro ⟨-, hk⟩
  rw [view_eq, hqueue, Tree.applyAll, List.foldl_append, List.foldl_cons] at hk
  exact not_mem_children_applyAll hafter (not_mem_children_remove hq) hk

end Events

end Realtime
