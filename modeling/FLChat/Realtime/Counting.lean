import FLChat.Realtime.Progress
import Mathlib.Algebra.Order.Ring.Nat
import Mathlib.Algebra.Order.BigOperators.Group.List
import Mathlib.Algebra.BigOperators.Ring.List

/-!
# Exactly once, and in order

Counting everything in flight against the log. A weight gives a number to each write, request, task,
observer and event; where a program turns what it consumes into what it issues of the same weight
(`Balanced`), the total is the number of the events that started it and of the children that the
observers announce (`total_step`). With keys that are drawn once this is how a program shows that
something happens exactly once.

The queue of writes keeps an order between two writes of one client that were issued in that order
(`pairwise_step`), and the server accepts the earlier one first (`before_of_commit`).
-/

namespace Realtime

/-! ## Weights of lists -/

section Weigh

variable {α : Type} {f : α → ℕ}

/-- The sum of the weights of the elements. -/
def weigh (f : α → ℕ) (xs : List α) : ℕ := (xs.map f).sum

@[simp] theorem weigh_nil : weigh f [] = 0 := rfl

@[simp] theorem weigh_cons (x : α) (xs : List α) : weigh f (x :: xs) = f x + weigh f xs := by
  simp [weigh]

@[simp] theorem weigh_append (xs ys : List α) : weigh f (xs ++ ys) = weigh f xs + weigh f ys := by
  simp [weigh]

theorem weigh_eraseIdx {xs : List α} {i : ℕ} {x : α} (h : xs[i]? = some x) :
    f x + weigh f (xs.eraseIdx i) = weigh f xs := by
  induction xs generalizing i with
  | nil => simp at h
  | cons y ys ih =>
    cases i with
    | zero =>
      simp only [List.getElem?_cons_zero, Option.some.injEq] at h
      simp [h]
    | succ i =>
      simp only [List.getElem?_cons_succ] at h
      simp only [List.eraseIdx_cons_succ, weigh_cons, ← ih h]
      omega

theorem le_weigh {xs : List α} {x : α} (h : x ∈ xs) : f x ≤ weigh f xs :=
  List.le_sum_of_mem (List.mem_map_of_mem h)

/-- Two elements weigh no more than the list that holds them. -/
theorem add_le_weigh {xs : List α} {x y : α} (hx : x ∈ xs) (hy : y ∈ xs) (hne : x ≠ y) :
    f x + f y ≤ weigh f xs := by
  obtain ⟨i, hi⟩ := List.mem_iff_getElem?.1 hx
  rw [← weigh_eraseIdx (f := f) hi]
  rcases mem_eraseIdx_or hi hy with rfl | hy
  · exact absurd rfl hne
  · exact Nat.add_le_add_left (le_weigh hy) _

theorem weigh_eq_zero {xs : List α} (h : ∀ x ∈ xs, f x = 0) : weigh f xs = 0 := by
  induction xs with
  | nil => rfl
  | cons x xs ih =>
    rw [weigh_cons, h x List.mem_cons_self, ih fun y hy => h y (List.mem_cons_of_mem _ hy)]

theorem weigh_perm {xs ys : List α} (h : xs.Perm ys) : weigh f xs = weigh f ys :=
  (h.map f).sum_eq

theorem weigh_le_weigh {g : α → ℕ} {xs : List α} (h : ∀ x ∈ xs, f x ≤ g x) :
    weigh f xs ≤ weigh g xs := by
  induction xs with
  | nil => simp
  | cons x xs ih =>
    have hx := h x List.mem_cons_self
    have := ih fun y hy => h y (List.mem_cons_of_mem _ hy)
    rw [weigh_cons, weigh_cons]
    omega

/-- What is left out weighs nothing. -/
theorem weigh_filter {p : α → Bool} {xs : List α} (h : ∀ x ∈ xs, p x = false → f x = 0) :
    weigh f (xs.filter p) = weigh f xs := by
  induction xs with
  | nil => rfl
  | cons x xs ih =>
    have ih := ih fun y hy => h y (List.mem_cons_of_mem _ hy)
    cases hp : p x with
    | true => rw [List.filter_cons_of_pos hp, weigh_cons, weigh_cons, ih]
    | false =>
      rw [List.filter_cons_of_neg (by simp [hp]), weigh_cons, ih, h x List.mem_cons_self hp,
        Nat.zero_add]

theorem weigh_filter_le (p : α → Bool) (xs : List α) : weigh f (xs.filter p) ≤ weigh f xs :=
  (List.filter_sublist.map f).sum_le_sum fun _ _ => Nat.zero_le _

theorem weigh_le_length_mul {n : ℕ} {xs : List α} (h : ∀ x ∈ xs, f x ≤ n) :
    weigh f xs ≤ xs.length * n := by
  induction xs with
  | nil => simp
  | cons x xs ih =>
    have hx := h x List.mem_cons_self
    have := ih fun y hy => h y (List.mem_cons_of_mem _ hy)
    rw [weigh_cons, List.length_cons, Nat.succ_mul]
    omega

theorem weigh_le_of_subset {xs ys : List α} (hnodup : xs.Nodup)
    (h : ∀ x ∈ xs, f x ≠ 0 → x ∈ ys) : weigh f xs ≤ weigh f ys := by
  rw [← weigh_filter (p := fun x => decide (f x ≠ 0)) fun x (_ : x ∈ xs) hx => by simpa using hx]
  have hsub : xs.filter (fun x => decide (f x ≠ 0)) ⊆ ys := fun x hx => by
    obtain ⟨hx, hne⟩ := List.mem_filter.1 hx
    exact h x hx (of_decide_eq_true hne)
  obtain ⟨zs, hperm, hsublist⟩ := List.subperm_of_subset (hnodup.filter _) hsub
  rw [← weigh_perm hperm]
  exact (hsublist.map f).sum_le_sum fun _ _ => Nat.zero_le _

/-- Where only one element weighs anything, a list without duplicates weighs no more than it. -/
theorem weigh_le_of_nodup {xs : List α} (hnodup : xs.Nodup) {a : α}
    (hne : ∀ x, x ≠ a → f x = 0) : weigh f xs ≤ f a := by
  induction xs with
  | nil => simp
  | cons x xs ih =>
    obtain ⟨hx, hnodup⟩ := List.nodup_cons.1 hnodup
    rw [weigh_cons]
    by_cases h : x = a
    · subst h
      rw [weigh_eq_zero fun y hy => hne y fun e => hx (e ▸ hy)]
      exact le_rfl
    · rw [hne x h, Nat.zero_add]
      exact ih hnodup

theorem weigh_congr {g : α → ℕ} {xs : List α} (h : ∀ x ∈ xs, f x = g x) : weigh f xs = weigh g xs :=
  congrArg List.sum (List.map_congr_left h)

theorem weigh_mul (n : ℕ) (xs : List α) : weigh (fun x => f x * n) xs = weigh f xs * n :=
  List.sum_map_mul_right xs f n

/-- An element weighs as much as it occurs. -/
theorem weigh_eq_count [DecidableEq α] (a : α) (xs : List α) :
    weigh (fun x => if x = a then 1 else 0) xs = xs.count a := by
  induction xs with
  | nil => rfl
  | cons x xs ih =>
    rw [weigh_cons, ih, List.count_cons]
    simp only [beq_iff_eq]
    omega

/-- An element occurs among the images as often as its preimages weigh. -/
theorem count_filterMap_eq_weigh {β : Type} [DecidableEq β] {g : α → Option β} {b : β}
    {xs : List α} (h : ∀ x ∈ xs, f x = if g x = some b then 1 else 0) :
    (xs.filterMap g).count b = weigh f xs := by
  induction xs with
  | nil => rfl
  | cons x xs ih =>
    rw [weigh_cons, List.filterMap_cons, h x List.mem_cons_self,
      ← ih fun y hy => h y (List.mem_cons_of_mem _ hy)]
    cases hg : g x with
    | none => simp
    | some b' =>
      rw [List.count_cons]
      simp only [beq_iff_eq, Option.some.injEq]
      omega

/-- An element occurs among the images no more often than its preimages weigh. -/
theorem count_filterMap_le_weigh {β : Type} [DecidableEq β] {g : α → Option β} {b : β}
    (h : ∀ x, g x = some b → 1 ≤ f x) (xs : List α) : (xs.filterMap g).count b ≤ weigh f xs := by
  induction xs with
  | nil => simp
  | cons x xs ih =>
    rw [weigh_cons, List.filterMap_cons]
    cases hg : g x with
    | none => exact ih.trans (Nat.le_add_left _ _)
    | some b' =>
      simp only [List.count_cons]
      split
      · next hb =>
        have := h x (by rw [hg, eq_of_beq hb])
        omega
      · omega

/-- Where at most the one element with a given key weighs anything, the list weighs no more. -/
theorem weigh_le_one {β : Type} {g : α → Option β} {k : β} {xs : List α}
    (hnodup : (xs.filterMap g).Nodup) (hf : ∀ x ∈ xs, f x ≤ 1)
    (hk : ∀ x ∈ xs, f x ≠ 0 → g x = some k) : weigh f xs ≤ 1 := by
  induction xs with
  | nil => simp
  | cons x xs ih =>
    have hf' := hf x List.mem_cons_self
    have hnodup' : (xs.filterMap g).Nodup :=
      hnodup.sublist ((List.sublist_cons_self x xs).filterMap g)
    have ih' := ih hnodup' (fun y hy => hf y (List.mem_cons_of_mem _ hy))
      fun y hy => hk y (List.mem_cons_of_mem _ hy)
    rw [weigh_cons]
    by_cases hx : f x = 0
    · omega
    · have hgx := hk x List.mem_cons_self hx
      rw [List.filterMap_cons_some hgx, List.nodup_cons] at hnodup
      have : weigh f xs = 0 := weigh_eq_zero fun y hy => by
        by_contra hy0
        exact hnodup.1 (List.mem_filterMap.2 ⟨y, hy, hk y (List.mem_cons_of_mem _ hy) hy0⟩)
      omega

/-- What is drawn from elements with keys of their own has keys of its own. -/
theorem nodup_map_filterMap {β γ : Type} {g : α → Option β} {key : α → Option γ} {k : β → γ}
    (h : ∀ x y, g x = some y → key x = some (k y)) {xs : List α}
    (hnodup : (xs.filterMap key).Nodup) : ((xs.filterMap g).map k).Nodup := by
  refine hnodup.sublist ?_
  induction xs with
  | nil => simp
  | cons x xs ih =>
    have ih := ih (hnodup.sublist ((List.sublist_cons_self x xs).filterMap key))
    rw [List.filterMap_cons, List.filterMap_cons]
    cases hg : g x with
    | none =>
      cases key x with
      | none => exact ih
      | some c => exact ih.cons c
    | some y =>
      rw [h x y hg]
      exact ih.cons_cons (k y)

end Weigh

variable {Loc Client Cb Blob App Action : Type} [Schema Loc]

/-! ## Weights of states -/

/-- The children that a write adds to the weight of the children of `p`. -/
theorem weigh_children_update [DecidableEq Loc] (f : String → ℕ) (t : Tree Loc) (p : Path)
    (l : Loc) (v : Val l) :
    weigh f ((t.update l v).children p) = weigh f (t.children p) +
      match Tree.childKey p l with
      | none => 0
      | some k => if k ∈ t.children p then 0 else f k := by
  have hnodup := (t.update l v).children_nodup p
  have hnodup' := t.children_nodup p
  cases hk : Tree.childKey p l with
  | none =>
    refine weigh_perm ((List.perm_ext_iff_of_nodup hnodup hnodup').2 fun k' => ?_)
    rw [Tree.mem_children_update, hk]
    simp
  | some k =>
    by_cases hold : k ∈ t.children p
    · simp only [hold, ↓reduceIte, Nat.add_zero]
      refine weigh_perm ((List.perm_ext_iff_of_nodup hnodup hnodup').2 fun k' => ?_)
      rw [Tree.mem_children_update, hk, Option.some.injEq]
      exact ⟨fun h => h.elim (fun e => e ▸ hold) id, .inr⟩
    · have hperm : ((t.update l v).children p).Perm (k :: t.children p) := by
        refine (List.perm_ext_iff_of_nodup hnodup (List.nodup_cons.2 ⟨hold, hnodup'⟩)).2
          fun k' => ?_
        rw [Tree.mem_children_update, hk, Option.some.injEq, List.mem_cons, eq_comm]
      rw [weigh_perm hperm, weigh_cons]
      simp only [hold, ↓reduceIte]
      omega

/-- A weight for everything a state holds. -/
structure Weight (Loc Client Cb Blob Action : Type) [Schema Loc] where
  write : Write Loc Client Cb → ℕ := fun _ => 0
  ask : Client × Ask Loc Cb Blob → ℕ := fun _ => 0
  task : Task Loc Client Cb → ℕ := fun _ => 0
  obs : ChildObserver Client Cb → ℕ := fun _ => 0
  event : Event Loc Client Cb Blob Action → ℕ := fun _ => 0

namespace Weight

/-- The weight of commands that client `c` issues. -/
def cmds (W : Weight Loc Client Cb Blob Action) (c : Client) (cs : List (Cmd Loc Cb Blob)) : ℕ :=
  weigh W.write (newWrites c cs) + weigh W.ask (newAsks c cs)

/-- The weight of a state. -/
def total (W : Weight Loc Client Cb Blob Action) (s : State Loc Client Cb Blob App Action) : ℕ :=
  weigh W.write s.writes + weigh W.ask s.asks + weigh W.task s.tasks + weigh W.obs s.childObs +
    weigh W.event s.log

/-- The weight of the event that announces the child `k` to the observer. -/
def child (W : Weight Loc Client Cb Blob Action) (o : ChildObserver Client Cb) (k : String) : ℕ :=
  W.task ⟨o.client, o.cb, .childAdded k⟩

/-- The weight of the events by which the observers learn of the children there are. -/
def announced (W : Weight Loc Client Cb Blob Action)
    (s : State Loc Client Cb Blob App Action) : ℕ :=
  weigh (fun o => weigh (W.child o) (s.tree.children o.path)) s.childObs

/-- When nothing is in flight, only the observers and what has happened weigh anything. -/
theorem total_of_quiescent (W : Weight Loc Client Cb Blob Action)
    {s : State Loc Client Cb Blob App Action} (hq : s.Quiescent) :
    W.total s = weigh W.obs s.childObs + weigh W.event s.log := by
  simp [total, hq.writes, hq.asks, hq.tasks]

@[simp] theorem cmds_nil (W : Weight Loc Client Cb Blob Action) (c : Client) :
    W.cmds c [] = 0 := rfl

@[simp] theorem cmds_write (W : Weight Loc Client Cb Blob Action) (c : Client) (op : Op Loc)
    (cb : Option Cb) (cs : List (Cmd Loc Cb Blob)) :
    W.cmds c (.write op cb :: cs) = W.write ⟨c, op, cb⟩ + W.cmds c cs := by
  simp [cmds, newWrites, newAsks, Nat.add_assoc]

@[simp] theorem cmds_ask (W : Weight Loc Client Cb Blob Action) (c : Client)
    (a : Ask Loc Cb Blob) (cs : List (Cmd Loc Cb Blob)) :
    W.cmds c (.ask a :: cs) = W.ask (c, a) + W.cmds c cs := by
  simp [cmds, newWrites, newAsks]
  omega

/-- Commands that weigh nothing one by one weigh nothing. -/
theorem cmds_eq_zero (W : Weight Loc Client Cb Blob Action) {c : Client}
    {cs : List (Cmd Loc Cb Blob)} (hwrite : ∀ op cb, .write op cb ∈ cs → W.write ⟨c, op, cb⟩ = 0)
    (hask : ∀ a, .ask a ∈ cs → W.ask (c, a) = 0) : W.cmds c cs = 0 := by
  have hw : weigh W.write (newWrites c cs) = 0 := weigh_eq_zero fun w hw => by
    obtain ⟨rfl, hcmd⟩ := mem_newWrites.1 hw
    exact hwrite _ _ hcmd
  have ha : weigh W.ask (newAsks c cs) = 0 := weigh_eq_zero fun x hx => by
    obtain ⟨rfl, hcmd⟩ := mem_newAsks.1 hx
    exact hask _ hcmd
  rw [cmds, hw, ha]

end Weight

/-- What the client `c` has and does weighs nothing. -/
structure Weight.Ignores (W : Weight Loc Client Cb Blob Action) (c : Client) : Prop where
  write : ∀ op cb, W.write ⟨c, op, cb⟩ = 0
  ask : ∀ a, W.ask (c, a) = 0
  task : ∀ cb input, W.task ⟨c, cb, input⟩ = 0
  obs : ∀ p cb, W.obs ⟨c, p, cb⟩ = 0

theorem Weight.Ignores.cmds_eq_zero {W : Weight Loc Client Cb Blob Action} {c : Client}
    (h : W.Ignores c) (cs : List (Cmd Loc Cb Blob)) : W.cmds c cs = 0 :=
  W.cmds_eq_zero (fun op cb _ => h.write op cb) fun a _ => h.ask a

/-- In state `s` every step issues what it consumes, and besides that only what the event it logs
starts (`src`) and what the observers announce, as far as it does not change the tree. -/
structure Balances [DecidableEq Loc] [DecidableEq Client]
    (P : Program Loc Client Cb Blob App Action) (W : Weight Loc Client Cb Blob Action)
    (src : Event Loc Client Cb Blob Action → ℕ) (s : State Loc Client Cb Blob App Action) :
    Prop where
  press : ∀ a e c app cmds, P.act a e s.app = some (c, app, cmds) →
    W.cmds c cmds + W.event (.pressed a e) = src (.pressed a e)
  run : ∀ t ∈ s.tasks, ∀ e, W.cmds t.client (P.handle t.client e t.cb t.input s.app).2 +
    W.event (.ran t e) = W.task t + src (.ran t e)
  write : ∀ w ∈ s.writes, ∀ ok, weigh W.task (w.ack ok) + W.event (.resolved w.client w.op ok) =
    W.write w + src (.resolved w.client w.op ok)
  observe : ∀ c p cb, (c, .childAdded p cb) ∈ s.asks → ∀ ok,
    W.obs ⟨c, p, cb⟩ + W.event (.served c (.childAdded p cb) ok) =
      W.ask (c, .childAdded p cb) + src (.served c (.childAdded p cb) ok)
  serve : ∀ c a, (c, a) ∈ s.asks → (∀ p cb, a ≠ .childAdded p cb) → ∀ ok,
    weigh W.task (s.answer c a ok) + W.event (.served c a ok) =
      W.ask (c, a) + src (.served c a ok)

/-- Besides, no write that waits raises anything at a value observer or removes what an observer
announces. -/
structure Balanced [DecidableEq Loc] [DecidableEq Client]
    (P : Program Loc Client Cb Blob App Action) (W : Weight Loc Client Cb Blob Action)
    (src : Event Loc Client Cb Blob Action → ℕ) (s : State Loc Client Cb Blob App Action) : Prop
    extends Balances P W src s where
  raise : ∀ w ∈ s.writes, ∀ t ∈ s.valueEvents w.op, W.task t = 0
  remove : ∀ w ∈ s.writes, ∀ p, w.op = .remove p → ∀ o ∈ s.childObs,
    (∀ k, W.child o k = 0) ∨ ∀ l : Loc, p <+: path l → ¬ o.path <+: path l

/-! ## Steps and runs -/

section Step

variable [DecidableEq Loc] [DecidableEq Client] {P : Program Loc Client Cb Blob App Action}
  {W : Weight Loc Client Cb Blob Action} {src : Event Loc Client Cb Blob Action → ℕ}
  {s s' : State Loc Client Cb Blob App Action} {l : Label Client Action}

omit [DecidableEq Client] in
/-- What an accepted write adds to the children is what it raises at their observers. -/
theorem announced_update {i : ℕ} {w : Write Loc Client Cb} {l : Loc} {v : Val l}
    (hop : w.op = .update l v) :
    W.announced (s.applied i w) = W.announced s + weigh W.task (s.childEvents w.op) := by
  rw [hop]
  simp only [Weight.announced, State.applied_tree, State.applied_childObs, hop, State.childEvents,
    Op.apply]
  induction s.childObs with
  | nil => rfl
  | cons o os ih =>
    rw [weigh_cons, weigh_cons, weigh_children_update, ih, List.filterMap_cons]
    cases Tree.childKey o.path l with
    | none => simp only; omega
    | some k =>
      by_cases hold : k ∈ s.tree.children o.path
      · simp only [hold, ↓reduceIte]
        omega
      · simp only [hold, ↓reduceIte, weigh_cons, Weight.child]
        omega

omit [DecidableEq Loc] [DecidableEq Client] in
/-- Observers that announce the same weight each. -/
theorem announced_of_obs {V : Weight Loc Client Cb Blob Action} {n : ℕ}
    (h : ∀ o ∈ s.childObs, weigh (W.child o) (s.tree.children o.path) = V.obs o * n) :
    W.announced s = weigh V.obs s.childObs * n := by
  rw [Weight.announced, weigh_congr h, weigh_mul]

omit [DecidableEq Loc] [DecidableEq Client] in
/-- An observer for whom one child weighs one. -/
theorem weigh_child_eq {o : ChildObserver Client Cb} {t : Tree Loc} {p : Path} {k : String}
    (h : ∀ k', W.child o k' = if k' = k then 1 else 0) :
    weigh (W.child o) (t.children p) = if k ∈ t.children p then 1 else 0 := by
  rw [weigh_congr fun k' _ => h k', weigh_eq_count, (Tree.children_nodup _ _).count]

omit [DecidableEq Client] in
/-- A removal that takes away nothing of what the observers have announced. -/
theorem announced_remove {i : ℕ} {w : Write Loc Client Cb} {p : Path} (hop : w.op = .remove p)
    (h : ∀ o ∈ s.childObs, ∀ k ∈ s.tree.children o.path, W.child o k ≠ 0 →
      k ∈ (s.tree.remove p).children o.path) :
    W.announced (s.applied i w) = W.announced s := by
  simp only [Weight.announced, State.applied_tree, State.applied_childObs, hop, Op.apply]
  refine weigh_congr fun o ho => ?_
  refine le_antisymm (weigh_le_of_subset (Tree.children_nodup _ _) fun k hk _ =>
    Tree.mem_children_of_remove hk) ?_
  exact weigh_le_of_subset (Tree.children_nodup _ _) (h o ho)

omit [DecidableEq Client] in
/-- A removal that keeps away from what the observers watch takes nothing from it. -/
theorem mem_children_remove {t : Tree Loc} {p q : Path} {k : String} (hk : k ∈ t.children q)
    (hdisj : ∀ l : Loc, p <+: path l → ¬ q <+: path l) : k ∈ (t.remove p).children q := by
  obtain ⟨l, hl, hk⟩ := Tree.mem_children.1 hk
  refine Tree.mem_children.2 ⟨l, Tree.mem_remove.2 ⟨hl, fun hp => hdisj l hp ?_⟩, hk⟩
  exact Tree.prefix_of_childKey hk

omit [DecidableEq Client] in
/-- A write that raises nothing at the value observers and takes away nothing of what the child
observers have announced. -/
theorem applied_of_kept {i : ℕ} {w : Write Loc Client Cb}
    (hraise : ∀ t ∈ s.valueEvents w.op, W.task t = 0)
    (hremove : ∀ p, w.op = .remove p → ∀ o ∈ s.childObs, ∀ k ∈ s.tree.children o.path,
      W.child o k ≠ 0 → k ∈ (s.tree.remove p).children o.path) :
    weigh W.task (s.valueEvents w.op) = 0 ∧
      W.announced (s.applied i w) = W.announced s + weigh W.task (s.childEvents w.op) := by
  refine ⟨weigh_eq_zero hraise, ?_⟩
  cases hop : w.op with
  | update l v => rw [announced_update hop, hop]
  | remove p =>
    rw [announced_remove hop (hremove p hop)]
    rfl

/-- A step keeps the total equal to what the log has started and the observers have announced, if
what it does to the tree keeps it so and the process that it ends weighs nothing. -/
theorem Balances.total_step (hbal : Balances P W src s)
    (h : W.total s = weigh src s.log + W.announced s) (hs : Transition P s l s')
    (happly : ∀ i w, l = .commit i true → s.writes[i]? = some w → s' = s.applied i w →
      weigh W.task (s.valueEvents w.op) = 0 ∧
        W.announced (s.applied i w) = W.announced s + weigh W.task (s.childEvents w.op))
    (hdie : ∀ c, l = .die c → W.Ignores c ∧ W.event (.died c) = src (.died c)) :
    W.total s' = weigh src s'.log + W.announced s' := by
  cases hs with
  | press hkey hact =>
    have := hbal.press _ _ _ _ _ hact
    simp only [Weight.total, Weight.announced, State.pressed_writes, State.pressed_asks,
      State.pressed_tasks, State.pressed_log, State.pressed_childObs, State.pressed_tree,
      weigh_append, weigh_cons, Weight.cmds] at h this ⊢
    omega
  | @run i e t app cmds hkey ht hrun =>
    have := hbal.run t (List.mem_of_getElem? ht) e
    have htask := weigh_eraseIdx (f := W.task) ht
    rw [hrun] at this
    simp only [Weight.total, Weight.announced, State.ran_writes, State.ran_asks, State.ran_tasks,
      State.ran_log, State.ran_childObs, State.ran_tree, weigh_append, weigh_cons,
      Weight.cmds] at h this ⊢
    omega
  | @apply i w hw hfirst =>
    have hmem := List.mem_of_getElem? hw
    have hbalance := hbal.write w hmem true
    have hwrite := weigh_eraseIdx (f := W.write) hw
    obtain ⟨hvalue, hann⟩ := happly i w rfl hw rfl
    rw [hann]
    simp only [Weight.total, State.applied_writes, State.applied_asks, State.applied_tasks,
      State.applied_log, State.applied_childObs, weigh_append, weigh_cons] at h ⊢
    omega
  | @reject i w hw hfirst =>
    have := hbal.write w (List.mem_of_getElem? hw) false
    have hwrite := weigh_eraseIdx (f := W.write) hw
    simp only [Weight.total, Weight.announced, State.rejected_writes, State.rejected_asks,
      State.rejected_tasks, State.rejected_log, State.rejected_childObs, State.rejected_tree,
      weigh_append, weigh_cons] at h this ⊢
    omega
  | @serve i c a ok ha =>
    have hmem := List.mem_of_getElem? ha
    have hask := weigh_eraseIdx (f := W.ask) ha
    -- a child observer announces what it finds; any other request answers with its own weight
    have hserve : weigh W.task (s.answer c a ok) + weigh W.obs (a.childObserver c) +
        W.event (.served c a ok) = W.ask (c, a) + src (.served c a ok) +
          weigh (fun o => weigh (W.child o) (s.tree.children o.path)) (a.childObserver c) := by
      by_cases hch : ∃ p cb, a = .childAdded p cb
      · obtain ⟨p, cb, rfl⟩ := hch
        have := hbal.observe c p cb hmem ok
        have hans : weigh W.task (s.answer c (.childAdded p cb) ok) =
            weigh (W.child ⟨c, p, cb⟩) (s.tree.children p) := by
          simp only [State.answer, weigh, List.map_map]
          rfl
        simp only [Ask.childObserver, weigh_cons, weigh_nil, hans]
        omega
      · have hne : ∀ p cb, a ≠ .childAdded p cb := fun p cb e => hch ⟨p, cb, e⟩
        have := hbal.serve c a hmem hne ok
        have hobs : a.childObserver c = [] := by
          cases a with
          | childAdded p cb => exact absurd rfl (hne p cb)
          | value | single | putData | downloadURL => rfl
        simp only [hobs, weigh_nil]
        omega
    simp only [Weight.total, Weight.announced, State.served_writes, State.served_asks,
      State.served_tasks, State.served_log, State.served_childObs, State.served_tree,
      weigh_append, weigh_cons] at h ⊢
    omega
  | @die c =>
    obtain ⟨hignores, hevent⟩ := hdie c rfl
    have hann : W.announced (s.died c (P.die c s.app)) = W.announced s :=
      weigh_filter fun o _ ho => weigh_eq_zero fun k _ => by
        obtain rfl : o.client = c := by simpa using ho
        exact hignores.task _ _
    rw [hann]
    simp only [Weight.total, State.died_writes, State.died_asks, State.died_tasks,
      State.died_childObs, State.died_log, weigh_cons] at h ⊢
    rw [weigh_filter, weigh_filter, weigh_filter, weigh_filter]
    · omega
    · rintro ⟨c', p, cb⟩ - ho
      obtain rfl : c' = c := by simpa using ho
      exact hignores.obs _ _
    · rintro ⟨c', cb, input⟩ - ht
      obtain rfl : c' = c := by simpa using ht
      exact hignores.task _ _
    · rintro ⟨c', a⟩ - ha
      obtain rfl : c' = c := by simpa using ha
      exact hignores.ask _
    · rintro ⟨c', op, cb⟩ - hw
      obtain rfl : c' = c := by simpa using hw
      exact hignores.write _ _

/-- A balanced step keeps the total equal to what the log has started and the observers have
announced. -/
theorem total_step (hbal : Balanced P W src s)
    (h : W.total s = weigh src s.log + W.announced s) (hs : Transition P s l s')
    (hl : ∀ c, l ≠ .die c) : W.total s' = weigh src s'.log + W.announced s' := by
  refine hbal.toBalances.total_step h hs (fun i w _ hw _ => ?_) fun c he => absurd he (hl c)
  have hmem := List.mem_of_getElem? hw
  refine applied_of_kept (hbal.raise w hmem) fun p hop o ho k hk hne => ?_
  rcases hbal.remove w hmem p hop o ho with hzero | hdisj
  · exact absurd (hzero k) hne
  · exact mem_children_remove hk hdisj

/-- The total over a run in which every state is balanced. -/
theorem total_of_reaches {ok : State Loc Client Cb Blob App Action → Label Client Action → Prop}
    (hs : Initial s) (hok : NoDeath ok)
    (hbal : ∀ t, Reaches (Realtime.step P) ok s t → Balanced P W src t)
    (h : Reaches (Realtime.step P) ok s s') :
    W.total s' = weigh src s'.log + W.announced s' := by
  refine h.invariant_of_reached ?_ fun ht ih hl hstep =>
    total_step (hbal _ ht) ih (transition_of_step hstep) fun c e => hok _ c (e ▸ hl)
  simp [Weight.total, Weight.announced, hs.writes, hs.asks, hs.tasks, hs.childObs, hs.log]

/-- The total over a run in which clients may die. -/
theorem Balances.total_of_reaches
    {ok : State Loc Client Cb Blob App Action → Label Client Action → Prop}
    (h₀ : W.total s = weigh src s.log + W.announced s)
    (hbal : ∀ t, Reaches (Realtime.step P) ok s t → Balances P W src t)
    (happly : ∀ t i w, Reaches (Realtime.step P) ok s t → ok t (.commit i true) →
      t.writes[i]? = some w → Realtime.step P t (.commit i true) = some (t.applied i w) →
      weigh W.task (t.valueEvents w.op) = 0 ∧
        W.announced (t.applied i w) = W.announced t + weigh W.task (t.childEvents w.op))
    (hdie : ∀ t c, ok t (.die c) → W.Ignores c ∧ W.event (.died c) = src (.died c))
    (h : Reaches (Realtime.step P) ok s s') :
    W.total s' = weigh src s'.log + W.announced s' := by
  refine h.invariant_of_reached
    (I := fun s' => W.total s' = weigh src s'.log + W.announced s') h₀
    fun {t l u} ht ih hl hstep => ?_
  refine (hbal _ ht).total_step ih (transition_of_step hstep) (fun i w he hw hu => ?_)
    fun c he => hdie t c (he ▸ hl)
  subst he
  rw [hu] at hstep
  exact happly t i w ht hl hw hstep

/-! ## Budgets -/

/-- In state `s` nothing that waits issues more than it weighs: a task pays for its commands, a
write for its completion and a request for its answers and its observer, and no write raises
anything at an observer. -/
structure Spends (P : Program Loc Client Cb Blob App Action) (W : Weight Loc Client Cb Blob Action)
    (s : State Loc Client Cb Blob App Action) : Prop where
  run : ∀ t ∈ s.tasks, ∀ e, W.cmds t.client (P.handle t.client e t.cb t.input s.app).2 +
    W.event (.ran t e) ≤ W.task t
  write : ∀ w ∈ s.writes, ∀ ok,
    weigh W.task (w.ack ok) + W.event (.resolved w.client w.op ok) ≤ W.write w
  raise : ∀ w ∈ s.writes, ∀ t, t ∈ s.childEvents w.op ∨ t ∈ s.valueEvents w.op → W.task t = 0
  serve : ∀ c a, (c, a) ∈ s.asks → ∀ ok, weigh W.task (s.answer c a ok) +
    weigh W.obs (a.childObserver c) + W.event (.served c a ok) ≤ W.ask (c, a)
  die : ∀ c, W.event (.died c) = 0

/-- A step spends from the total, if a press adds nothing to it. -/
theorem Spends.total_step (h : Spends P W s) (hs : Transition P s l s')
    (hpress : ∀ a e c app cmds, l = .press a e → P.act a e s.app = some (c, app, cmds) →
      W.cmds c cmds + W.event (.pressed a e) = 0) : W.total s' ≤ W.total s := by
  cases hs with
  | press hkey hact =>
    have := hpress _ _ _ _ _ rfl hact
    simp only [Weight.total, State.pressed_writes, State.pressed_asks, State.pressed_tasks,
      State.pressed_log, State.pressed_childObs, weigh_append, weigh_cons, Weight.cmds] at this ⊢
    omega
  | @run i e t app cmds hkey ht hrun =>
    have := h.run t (List.mem_of_getElem? ht) e
    have htask := weigh_eraseIdx (f := W.task) ht
    rw [hrun] at this
    simp only [Weight.total, State.ran_writes, State.ran_asks, State.ran_tasks, State.ran_log,
      State.ran_childObs, weigh_append, weigh_cons, Weight.cmds] at this ⊢
    omega
  | @apply i w hw hfirst =>
    have hmem := List.mem_of_getElem? hw
    have := h.write w hmem true
    have hwrite := weigh_eraseIdx (f := W.write) hw
    have hchild := weigh_eq_zero fun t ht => h.raise w hmem t (.inl ht)
    have hvalue := weigh_eq_zero fun t ht => h.raise w hmem t (.inr ht)
    simp only [Weight.total, State.applied_writes, State.applied_asks, State.applied_tasks,
      State.applied_log, State.applied_childObs, weigh_append, weigh_cons]
    omega
  | @reject i w hw hfirst =>
    have := h.write w (List.mem_of_getElem? hw) false
    have hwrite := weigh_eraseIdx (f := W.write) hw
    simp only [Weight.total, State.rejected_writes, State.rejected_asks, State.rejected_tasks,
      State.rejected_log, State.rejected_childObs, weigh_append, weigh_cons]
    omega
  | @serve i c a ok ha =>
    have := h.serve c a (List.mem_of_getElem? ha) ok
    have hask := weigh_eraseIdx (f := W.ask) ha
    simp only [Weight.total, State.served_writes, State.served_asks, State.served_tasks,
      State.served_log, State.served_childObs, weigh_append, weigh_cons]
    omega
  | @die c =>
    have := h.die c
    have hwrites := weigh_filter_le (f := W.write) (fun w => decide (w.client ≠ c)) s.writes
    have hasks := weigh_filter_le (f := W.ask) (fun a => decide (a.1 ≠ c)) s.asks
    have htasks := weigh_filter_le (f := W.task) (fun t => decide (t.client ≠ c)) s.tasks
    have hobs := weigh_filter_le (f := W.obs) (fun o => decide (o.client ≠ c)) s.childObs
    simp only [Weight.total, State.died_writes, State.died_asks, State.died_tasks,
      State.died_childObs, State.died_log, weigh_cons]
    omega

/-- What happens in a run is paid for by what was waiting when it began. -/
theorem total_le_of_reaches
    {ok : State Loc Client Cb Blob App Action → Label Client Action → Prop}
    (hspends : ∀ t, Reaches (Realtime.step P) ok s t → Spends P W t)
    (hpress : ∀ t a e, ok t (.press a e) → ∀ c app cmds, P.act a e t.app = some (c, app, cmds) →
      W.cmds c cmds + W.event (.pressed a e) = 0)
    (h : Reaches (Realtime.step P) ok s s') : W.total s' ≤ W.total s := by
  refine h.invariant_of_reached (I := fun s' => W.total s' ≤ W.total s) le_rfl
    fun {t l u} ht ih hl hstep => le_trans ?_ ih
  refine (hspends t ht).total_step (transition_of_step hstep) ?_
  rintro a e c app cmds rfl hact
  exact hpress t a e hl c app cmds hact

/-! ## The order of writes -/

/-- A relation from earlier to later writes is kept when it holds among the new writes and from the
waiting ones to the new ones. -/
theorem pairwise_step {R : Write Loc Client Cb → Write Loc Client Cb → Prop}
    (h : s.writes.Pairwise R) (hs : Transition P s l s')
    (hpress : ∀ a e c app cmds, e.key ∉ s.issued → P.act a e s.app = some (c, app, cmds) →
      (newWrites c cmds).Pairwise R ∧ ∀ w ∈ s.writes, ∀ w' ∈ newWrites c cmds, R w w')
    (hrun : ∀ t ∈ s.tasks, ∀ e, e.key ∉ s.issued → ∀ app cmds,
      P.handle t.client e t.cb t.input s.app = (app, cmds) →
      (newWrites t.client cmds).Pairwise R ∧
        ∀ w ∈ s.writes, ∀ w' ∈ newWrites t.client cmds, R w w') : s'.writes.Pairwise R := by
  cases hs with
  | press hkey hact =>
    obtain ⟨hnew, hold⟩ := hpress _ _ _ _ _ hkey hact
    exact List.pairwise_append.2 ⟨h, hnew, hold⟩
  | run hkey ht hr =>
    obtain ⟨hnew, hold⟩ := hrun _ (List.mem_of_getElem? ht) _ hkey _ _ hr
    exact List.pairwise_append.2 ⟨h, hnew, hold⟩
  | apply => exact h.sublist (List.eraseIdx_sublist _ _)
  | reject => exact h.sublist (List.eraseIdx_sublist _ _)
  | serve => exact h
  | die => exact h.sublist List.filter_sublist

omit [DecidableEq Loc] [DecidableEq Client] in
/-- When the server takes a write, the other waiting writes of the same client come after it. -/
theorem before_of_commit {R : Write Loc Client Cb → Write Loc Client Cb → Prop}
    (h : s.writes.Pairwise R) {i : ℕ} {w w' : Write Loc Client Cb} (hw : s.writes[i]? = some w)
    (hfirst : s.FirstOfClient i w.client) (hw' : w' ∈ s.writes.eraseIdx i)
    (hclient : w'.client = w.client) : R w w' := by
  rw [List.mem_eraseIdx_iff_getElem?] at hw'
  obtain ⟨j, hij, hj⟩ := hw'
  obtain ⟨hi', rfl⟩ := List.getElem?_eq_some_iff.1 hw
  obtain ⟨hj', rfl⟩ := List.getElem?_eq_some_iff.1 hj
  rcases Nat.lt_or_gt_of_ne hij with hlt | hgt
  · exact absurd hclient (hfirst _ (List.mem_take_iff_getElem.2 ⟨j, by omega, rfl⟩))
  · exact List.pairwise_iff_getElem.1 h i j hi' hj' hgt

end Step

end Realtime
