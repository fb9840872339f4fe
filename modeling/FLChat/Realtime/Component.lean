import FLChat.Realtime.Ordered
import Mathlib.Data.List.Perm.Basic

/-!
# A component of a program

A process often does several things at once over one database, each of which can be looked at on its
own. A component of `P` is a program `P'` with a projection: which part of the tree and of the
objects it works on, and which writes, requests, callbacks and observers are its own. What else the
process does must leave that part alone. In return `P'` may know less: a step of `P` may be a press
of `P'`, as where another part of the process sets something that `P'` takes from outside, or nothing
at all.

A device may stop in `P` for a reason that `P'` does not know. Its callbacks are then never run in
`P'`, so `P'` may have more of them waiting (`Shows.tasks`). Every run of `P` is one of `P'`
(`Component.reaches`), with the same part of the database and of the objects, and the same writes and
requests under way.
-/

namespace Realtime

variable {Loc Client Cb Blob App Action Loc' Client' Cb' Blob' App' Action' : Type}
  [Schema Loc] [Schema Loc']

/-! ## Taking one's own out of a list -/

section Lists

variable {α β : Type} {f : α → Option β} {xs : List α} {i : ℕ} {x : α} {y : β}

/-- Where an element is among one's own. -/
def ownIndex (f : α → Option β) (xs : List α) (i : ℕ) : ℕ := ((xs.take i).filterMap f).length

theorem exists_split (hx : xs[i]? = some x) : ∃ before after, before.length = i ∧
    xs = before ++ x :: after := by
  obtain ⟨hi, rfl⟩ := List.getElem?_eq_some_iff.1 hx
  refine ⟨xs.take i, xs.drop (i + 1), ?_, ?_⟩
  · rw [List.length_take]
    omega
  · rw [List.getElem_cons_drop, List.take_append_drop]

theorem getElem?_ownIndex (hx : xs[i]? = some x) (hf : f x = some y) :
    (xs.filterMap f)[ownIndex f xs i]? = some y := by
  obtain ⟨before, after, rfl, rfl⟩ := exists_split hx
  rw [ownIndex, List.take_left, List.filterMap_append, List.filterMap_cons_some hf,
    List.getElem?_append_right le_rfl, Nat.sub_self]
  rfl

theorem take_ownIndex (hx : xs[i]? = some x) :
    (xs.filterMap f).take (ownIndex f xs i) = (xs.take i).filterMap f := by
  obtain ⟨before, after, rfl, rfl⟩ := exists_split hx
  rw [ownIndex, List.take_left, List.filterMap_append, List.take_left]

theorem eraseIdx_ownIndex (hx : xs[i]? = some x) (hf : f x = some y) :
    (xs.filterMap f).eraseIdx (ownIndex f xs i) = (xs.eraseIdx i).filterMap f := by
  obtain ⟨before, after, rfl, rfl⟩ := exists_split hx
  rw [ownIndex, List.take_left, List.filterMap_append, List.filterMap_cons_some hf,
    List.eraseIdx_append_of_length_le le_rfl, List.eraseIdx_append_of_length_le le_rfl, Nat.sub_self,
    Nat.sub_self, List.eraseIdx_cons_zero, List.eraseIdx_cons_zero, List.filterMap_append]

end Lists

/-! ## Components -/

/-- What of `P` belongs to `P'`. -/
structure Projection (P : Program Loc Client Cb Blob App Action)
    (P' : Program Loc' Client' Cb' Blob' App' Action') where
  client : Client → Client'
  tree : Tree Loc → Tree Loc'
  objects : (Path → Option (Object Blob)) → Path → Option (Object Blob')
  write : Write Loc Client Cb → Option (Write Loc' Client' Cb')
  ask : Client × Ask Loc Cb Blob → Option (Client' × Ask Loc' Cb' Blob')
  task : Task Loc Client Cb → Option (Task Loc' Client' Cb')
  childObs : ChildObserver Client Cb → Option (ChildObserver Client' Cb')
  valueObs : ValueObserver Loc Client Cb → Option (ValueObserver Loc' Client' Cb')
  Sees : App → App' → Prop

namespace Projection

variable {P : Program Loc Client Cb Blob App Action}
  {P' : Program Loc' Client' Cb' Blob' App' Action'} (C : Projection P P')

/-- The database, the objects and what is under way on the way to the server are those of the
component. -/
structure Mirrors (s : State Loc Client Cb Blob App Action)
    (s' : State Loc' Client' Cb' Blob' App' Action') : Prop where
  tree : s'.tree = C.tree s.tree
  objects : s'.objects = C.objects s.objects
  writes : s'.writes = s.writes.filterMap C.write
  asks : s'.asks = s.asks.filterMap C.ask
  childObs : s'.childObs = s.childObs.filterMap C.childObs
  valueObs : s'.valueObs = s.valueObs.filterMap C.valueObs
  issued : s'.issued ⊆ s.issued

/-- `s'` is what the component sees of `s`. -/
structure Shows (s : State Loc Client Cb Blob App Action)
    (s' : State Loc' Client' Cb' Blob' App' Action') : Prop extends C.Mirrors s s' where
  tasks : ∃ lost, s'.tasks.Perm (s.tasks.filterMap C.task ++ lost)
  sees : C.Sees s.app s'.app

/-- The commands `cmds'` are those of the component among `cmds`. -/
structure Carries (c : Client) (cmds : List (Cmd Loc Cb Blob))
    (cmds' : List (Cmd Loc' Cb' Blob')) : Prop where
  writes : (newWrites c cmds).filterMap C.write = newWrites (C.client c) cmds'
  asks : (newAsks c cmds).filterMap C.ask = newAsks (C.client c) cmds'

/-- To the component, a step of `c` to `app` is nothing or a press. -/
inductive Follows (e : Env) (c : Client) (app : App) (cmds : List (Cmd Loc Cb Blob))
    (app' : App') : Prop
  | stays (hcmds : C.Carries c cmds []) (hsees : C.Sees app app')
  | presses (b : Action') (next : App') (cmds' : List (Cmd Loc' Cb' Blob'))
    (hact : P'.act b e app' = some (C.client c, next, cmds')) (hcmds : C.Carries c cmds cmds')
    (hsees : C.Sees app next)

/-- To the component, the task `t` is one of its own. -/
inductive Runs (e : Env) (t : Task Loc Client Cb) (app : App) (cmds : List (Cmd Loc Cb Blob))
    (app' : App') : Prop
  | runs (t' : Task Loc' Client' Cb') (next : App') (cmds' : List (Cmd Loc' Cb' Blob'))
    (ht : C.task t = some t') (hrun : P'.handle t'.client e t'.cb t'.input app' = (next, cmds'))
    (hcmds : C.Carries t.client cmds cmds') (hsees : C.Sees app next)

/-- The labels under which the component goes along. -/
inductive Shadows : Label Client Action → Label Client' Action' → Prop
  | press {a e b} : Shadows (.press a e) (.press b e)
  | run {i e j} : Shadows (.run i e) (.run j e)
  | told {i e b} : Shadows (.run i e) (.press b e)
  | commit {i ok j} : Shadows (.commit i ok) (.commit j ok)
  | serve {i ok j} : Shadows (.serve i ok) (.serve j ok)
  | die {c} : Shadows (.die c) (.die (C.client c))

variable {C} in
/-- Where nothing fails in the process, nothing fails in the component. -/
theorem Shadows.succeeds {l : Label Client Action} {l' : Label Client' Action'}
    (h : C.Shadows l l') (hl : l.succeeds = true) : l'.succeeds = true := by
  cases h with
  | press | run | told => rfl
  | commit | serve => exact hl
  | die => cases hl

end Projection

/-- `P'` is a component of `P` in states with `Inv` under the presses that may happen: what is its own
is done by it, and what is not leaves it alone. -/
structure Component [DecidableEq Loc] [DecidableEq Client] [DecidableEq Loc'] [DecidableEq Client']
    (P : Program Loc Client Cb Blob App Action)
    (P' : Program Loc' Client' Cb' Blob' App' Action')
    (Inv : State Loc Client Cb Blob App Action → Prop) (May : Action → Prop) extends
    Projection P P' where
  client_inj : Function.Injective client
  write_client : ∀ {w w'}, write w = some w' → w'.client = client w.client
  ask_client : ∀ {x x'}, ask x = some x' → x'.1 = client x.1
  task_client : ∀ {t t'}, task t = some t' → t'.client = client t.client
  childObs_client : ∀ {o o'}, childObs o = some o' → o'.client = client o.client
  valueObs_client : ∀ {o o'}, valueObs o = some o' → o'.client = client o.client
  tree_own : ∀ {w w'} t, write w = some w' → tree (w.op.apply t) = w'.op.apply (tree t)
  tree_other : ∀ {s w} t, Inv s → w ∈ s.writes → write w = none → tree (w.op.apply t) = tree t
  ack_own : ∀ {w w'} ok, write w = some w' → (w.ack ok).filterMap task = w'.ack ok
  ack_other : ∀ {s w} ok, Inv s → w ∈ s.writes → write w = none → (w.ack ok).filterMap task = []
  events_own : ∀ {s s' w w'}, Inv s → toProjection.Mirrors s s' → w ∈ s.writes →
    write w = some w' → (s.childEvents w.op ++ s.valueEvents w.op).filterMap task =
      s'.childEvents w'.op ++ s'.valueEvents w'.op
  events_other : ∀ {s w}, Inv s → w ∈ s.writes → write w = none →
    (s.childEvents w.op ++ s.valueEvents w.op).filterMap task = []
  store_own : ∀ {c a c' a'} ok o, ask (c, a) = some (c', a') →
    objects (a.store ok o) = a'.store ok (objects o)
  store_other : ∀ {s c a} ok o, Inv s → (c, a) ∈ s.asks → ask (c, a) = none →
    objects (a.store ok o) = objects o
  observers_own : ∀ {c a c' a'}, ask (c, a) = some (c', a') →
    (a.childObserver c).filterMap childObs = a'.childObserver c' ∧
      (a.valueObserver c).filterMap valueObs = a'.valueObserver c'
  observers_other : ∀ {s c a}, Inv s → (c, a) ∈ s.asks → ask (c, a) = none →
    (a.childObserver c).filterMap childObs = [] ∧ (a.valueObserver c).filterMap valueObs = []
  answer_own : ∀ {s s' c a c' a'} ok, Inv s → toProjection.Mirrors s s' →
    s'.view (client c) = tree (s.view c) → (c, a) ∈ s.asks → ask (c, a) = some (c', a') →
      (s.answer c a ok).filterMap task = s'.answer c' a' ok
  answer_other : ∀ {s c a} ok, Inv s → (c, a) ∈ s.asks → ask (c, a) = none →
    (s.answer c a ok).filterMap task = []
  act : ∀ {s a e c app cmds app'}, Inv s → May a → Sees s.app app' →
    P.act a e s.app = some (c, app, cmds) → toProjection.Follows e c app cmds app'
  handle : ∀ {s e t app cmds app'}, Inv s → Sees s.app app' → t ∈ s.tasks →
    P.handle t.client e t.cb t.input s.app = (app, cmds) →
      toProjection.Follows e t.client app cmds app' ∨ toProjection.Runs e t app cmds app'
  die : ∀ {s app'} c, Inv s → Sees s.app app' → Sees (P.die c s.app) (P'.die (client c) app')

namespace Component

variable [DecidableEq Loc] [DecidableEq Client] [DecidableEq Loc'] [DecidableEq Client']
  {P : Program Loc Client Cb Blob App Action} {P' : Program Loc' Client' Cb' Blob' App' Action'}
  {Inv : State Loc Client Cb Blob App Action → Prop} {May : Action → Prop}
  (C : Component P P' Inv May)
  {s t : State Loc Client Cb Blob App Action} {s' : State Loc' Client' Cb' Blob' App' Action'}
  {l : Label Client Action} {c : Client}

/-- What belongs to a client is told apart by it. -/
theorem filterMap_filter {α β : Type} {f : α → Option β} {who : α → Client} {who' : β → Client'}
    (hwho : ∀ x y, f x = some y → who' y = C.client (who x)) (p : Client → Bool)
    (p' : Client' → Bool) (hp : ∀ c, p' (C.client c) = p c) (xs : List α) :
    (xs.filter fun x => p (who x)).filterMap f = (xs.filterMap f).filter fun y => p' (who' y) := by
  rw [List.filterMap_filter, List.filter_filterMap]
  refine List.filterMap_congr fun x _ => ?_
  cases hf : f x with
  | none => simp
  | some y => simp [Option.filter_some, hwho x y hf, hp]

theorem filterMap_own {α β : Type} {f : α → Option β} {who : α → Client} {who' : β → Client'}
    (hwho : ∀ x y, f x = some y → who' y = C.client (who x)) (xs : List α) :
    (xs.filter fun x => decide (who x = c)).filterMap f =
      (xs.filterMap f).filter fun y => decide (who' y = C.client c) :=
  C.filterMap_filter hwho (fun c' => decide (c' = c)) (fun c' => decide (c' = C.client c))
    (fun _ => decide_eq_decide.2 C.client_inj.eq_iff) xs

theorem filterMap_others {α β : Type} {f : α → Option β} {who : α → Client} {who' : β → Client'}
    (hwho : ∀ x y, f x = some y → who' y = C.client (who x)) (xs : List α) :
    (xs.filter fun x => decide (who x ≠ c)).filterMap f =
      (xs.filterMap f).filter fun y => decide (who' y ≠ C.client c) :=
  C.filterMap_filter hwho (fun c' => decide (c' ≠ c)) (fun c' => decide (c' ≠ C.client c))
    (fun _ => decide_eq_decide.2 C.client_inj.ne_iff) xs

/-- A client of the component sees its part of what the client sees. -/
theorem view (hI : Inv s) (h : C.Mirrors s s') : s'.view (C.client c) = C.tree (s.view c) := by
  have hfilter : s'.writes.filter (fun w => decide (w.client = C.client c)) =
      (s.writes.filter fun w => decide (w.client = c)).filterMap C.write := by
    rw [h.writes]
    exact (C.filterMap_own (fun _ _ => C.write_client) s.writes).symm
  unfold State.view
  rw [hfilter, h.tree]
  have hother : ∀ w ∈ s.writes.filter (fun w => decide (w.client = c)), C.write w = none →
      ∀ t, C.tree (w.op.apply t) = C.tree t := fun w hw hnone t =>
    C.tree_other t hI (List.mem_filter.1 hw).1 hnone
  generalize s.writes.filter (fun w => decide (w.client = c)) = ws at hother
  generalize s.tree = t
  induction ws generalizing t with
  | nil => rfl
  | cons w ws ih =>
    have hws : ∀ w ∈ ws, C.write w = none → ∀ t, C.tree (w.op.apply t) = C.tree t :=
      fun w hw => hother w (List.mem_cons_of_mem _ hw)
    cases hw : C.write w with
    | none =>
      rw [List.filterMap_cons_none hw, List.foldl_cons, ← ih hws,
        hother w List.mem_cons_self hw t]
    | some w' =>
      rw [List.filterMap_cons_some hw, List.foldl_cons, List.foldl_cons, ← ih hws,
        C.tree_own t hw]

theorem firstOfClient (h : C.Mirrors s s') {i : ℕ} {w : Write Loc Client Cb}
    {w' : Write Loc' Client' Cb'} (hi : s.writes[i]? = some w) (hw : C.write w = some w')
    (hfirst : s.FirstOfClient i w.client) :
    s'.FirstOfClient (ownIndex C.write s.writes i) w'.client := by
  intro x' hx' hc
  rw [h.writes, take_ownIndex hi] at hx'
  obtain ⟨x, hx, hx'⟩ := List.mem_filterMap.1 hx'
  refine hfirst x hx (C.client_inj ?_)
  rw [← C.write_client hx', hc, C.write_client hw]

/-- `t` is `s` with the commands `cmds` of `c` under way, which were issued with the key `k`. -/
structure Issues (c : Client) (k : String) (cmds : List (Cmd Loc Cb Blob))
    (s t : State Loc Client Cb Blob App Action) : Prop where
  tree : t.tree = s.tree
  objects : t.objects = s.objects
  writes : t.writes = s.writes ++ newWrites c cmds
  asks : t.asks = s.asks ++ newAsks c cmds
  childObs : t.childObs = s.childObs
  valueObs : t.valueObs = s.valueObs
  issued : t.issued = k :: s.issued

theorem mirrors_of_issues {t' : State Loc' Client' Cb' Blob' App' Action'} {k : String}
    {cmds : List (Cmd Loc Cb Blob)} {cmds' : List (Cmd Loc' Cb' Blob')} (h : C.Mirrors s s')
    (hcmds : C.Carries c cmds cmds') (ht : Issues c k cmds s t)
    (ht' : Issues (C.client c) k cmds' s' t') : C.Mirrors t t' where
  tree := by rw [ht.tree, ht'.tree, h.tree]
  objects := by rw [ht.objects, ht'.objects, h.objects]
  writes := by rw [ht.writes, ht'.writes, h.writes, List.filterMap_append, hcmds.writes]
  asks := by rw [ht.asks, ht'.asks, h.asks, List.filterMap_append, hcmds.asks]
  childObs := by rw [ht.childObs, ht'.childObs, h.childObs]
  valueObs := by rw [ht.valueObs, ht'.valueObs, h.valueObs]
  issued := by
    rw [ht.issued, ht'.issued]
    exact List.cons_subset_cons k h.issued

/-- Commands that are none of the component's change nothing for it. -/
theorem mirrors_of_stays {k : String} {cmds : List (Cmd Loc Cb Blob)} (h : C.Mirrors s s')
    (hcmds : C.Carries c cmds []) (ht : Issues c k cmds s t) : C.Mirrors t s' where
  tree := by rw [ht.tree, h.tree]
  objects := by rw [ht.objects, h.objects]
  writes := by
    rw [ht.writes, h.writes, List.filterMap_append, hcmds.writes]
    exact (List.append_nil _).symm
  asks := by
    rw [ht.asks, h.asks, List.filterMap_append, hcmds.asks]
    exact (List.append_nil _).symm
  childObs := by rw [ht.childObs, h.childObs]
  valueObs := by rw [ht.valueObs, h.valueObs]
  issued k hk := by
    rw [ht.issued]
    exact List.mem_cons_of_mem _ (h.issued hk)

/-- A step that the component follows. -/
theorem shows_of_follows {e : Env} {cmds : List (Cmd Loc Cb Blob)} (h : C.Mirrors s s')
    (hkey : e.key ∉ s.issued) (hfollows : C.Follows e c t.app cmds s'.app)
    (ht : Issues c e.key cmds s t)
    (htasks : ∃ lost, s'.tasks.Perm (t.tasks.filterMap C.task ++ lost)) :
    C.Shows t s' ∨
      ∃ b t', Realtime.step P' s' (.press b e) = some t' ∧ C.Shows t t' := by
  have hkey' : e.key ∉ s'.issued := fun hk => hkey (h.issued hk)
  cases hfollows with
  | stays hcmds hsees => exact .inl ⟨C.mirrors_of_stays h hcmds ht, htasks, hsees⟩
  | @presses b next cmds' hact hcmds hsees =>
    refine .inr ⟨b, _, step_of_transition (.press hkey' hact), ?_, htasks, hsees⟩
    exact C.mirrors_of_issues h hcmds ht ⟨rfl, rfl, rfl, rfl, rfl, rfl, rfl⟩

/-- A task that is taken out. -/
theorem filterMap_tasks_perm {i : ℕ} {τ : Task Loc Client Cb} (hi : s.tasks[i]? = some τ) :
    (s.tasks.filterMap C.task).Perm
      ((C.task τ).toList ++ (s.tasks.eraseIdx i).filterMap C.task) := by
  obtain ⟨hlt, rfl⟩ := List.getElem?_eq_some_iff.1 hi
  have hperm := ((List.getElem_cons_eraseIdx_perm hlt).filterMap C.task).symm
  cases hτ : C.task s.tasks[i] with
  | none => rwa [List.filterMap_cons_none hτ] at hperm
  | some τ' => rwa [List.filterMap_cons_some hτ] at hperm

theorem step_run (hI : Inv s) (h : C.Shows s s') {i : ℕ} {e : Env} {τ : Task Loc Client Cb}
    {app : App} {cmds : List (Cmd Loc Cb Blob)} (hkey : e.key ∉ s.issued)
    (hi : s.tasks[i]? = some τ) (hrun : P.handle τ.client e τ.cb τ.input s.app = (app, cmds)) :
    C.Shows (s.ran i τ e app cmds) s' ∨ ∃ l' t', C.Shadows (.run i e) l' ∧
      Realtime.step P' s' l' = some t' ∧ C.Shows (s.ran i τ e app cmds) t' := by
  have hissues : Issues τ.client e.key cmds s (s.ran i τ e app cmds) :=
    ⟨rfl, rfl, rfl, rfl, rfl, rfl, rfl⟩
  obtain ⟨lost, hlost⟩ := h.tasks
  have hrest : s'.tasks.Perm
      ((C.task τ).toList ++ ((s.tasks.eraseIdx i).filterMap C.task ++ lost)) := by
    rw [← List.append_assoc]
    exact hlost.trans ((C.filterMap_tasks_perm hi).append_right lost)
  rcases C.handle hI h.sees (List.mem_of_getElem? hi) hrun with
    hfollows | ⟨τ', next, cmds', hτ, hrun', hcmds, hsees⟩
  · -- what the component does not run is lost for it
    have htasks : ∃ lost, s'.tasks.Perm ((s.tasks.eraseIdx i).filterMap C.task ++ lost) := by
      refine ⟨(C.task τ).toList ++ lost, hrest.trans ?_⟩
      rw [← List.append_assoc, ← List.append_assoc]
      exact List.perm_append_comm.append_right lost
    rcases C.shows_of_follows h.toMirrors hkey hfollows hissues htasks with hstays | ⟨b, t', hs, ht⟩
    · exact .inl hstays
    · exact .inr ⟨_, t', .told, hs, ht⟩
  · rw [hτ] at hrest
    obtain ⟨j, hj⟩ := List.mem_iff_getElem?.1 (hrest.symm.subset List.mem_cons_self)
    have hkey' : e.key ∉ s'.issued := fun hk => hkey (h.issued hk)
    refine .inr ⟨_, _, .run, step_of_transition (.run hkey' hj hrun'), ?_, ⟨lost, ?_⟩, hsees⟩
    · have hclient := C.task_client hτ
      refine C.mirrors_of_issues h.toMirrors hcmds hissues ⟨rfl, rfl, ?_, ?_, rfl, rfl, rfl⟩
      · rw [← hclient]; rfl
      · rw [← hclient]; rfl
    · obtain ⟨hlt, rfl⟩ := List.getElem?_eq_some_iff.1 hj
      exact ((List.getElem_cons_eraseIdx_perm hlt).trans hrest).cons_inv

theorem step_commit (hI : Inv s) (h : C.Shows s s') {i : ℕ} {w : Write Loc Client Cb} (ok : Bool)
    (hi : s.writes[i]? = some w) (hfirst : s.FirstOfClient i w.client) :
    C.Shows (if ok then s.applied i w else s.rejected i w) s' ∨
      ∃ l' t', C.Shadows (.commit i ok) l' ∧ Realtime.step P' s' l' = some t' ∧
        C.Shows (if ok then s.applied i w else s.rejected i w) t' := by
  have hmem := List.mem_of_getElem? hi
  obtain ⟨lost, hlost⟩ := h.tasks
  -- new tasks of the component come before what is lost for it
  have htasks : ∀ {new : List (Task Loc Client Cb)} {new' : List (Task Loc' Client' Cb')},
      new.filterMap C.task = new' →
        ∃ lost, (s'.tasks ++ new').Perm ((s.tasks ++ new).filterMap C.task ++ lost) := by
    rintro new _ rfl
    refine ⟨lost, ?_⟩
    rw [List.filterMap_append, List.append_assoc]
    refine (hlost.append_right _).trans ?_
    rw [List.append_assoc]
    exact List.perm_append_comm.append_left _
  cases hw : C.write w with
  | none =>
    refine .inl ?_
    have hwrites : s'.writes = (s.writes.eraseIdx i).filterMap C.write := by
      rw [h.writes, filterMap_eraseIdx_of_none hi hw]
    cases ok with
    | true =>
      have hnew : (s.childEvents w.op ++ s.valueEvents w.op ++ w.ack true).filterMap C.task = [] := by
        rw [List.filterMap_append, C.events_other hI hmem hw, C.ack_other true hI hmem hw]
        rfl
      obtain ⟨lost, hperm⟩ := htasks hnew
      rw [List.append_nil] at hperm
      exact ⟨⟨h.tree.trans (C.tree_other _ hI hmem hw).symm, h.objects, hwrites, h.asks, h.childObs,
        h.valueObs, h.issued⟩, ⟨lost, hperm⟩, h.sees⟩
    | false =>
      obtain ⟨lost, hperm⟩ := htasks (C.ack_other false hI hmem hw)
      rw [List.append_nil] at hperm
      exact ⟨⟨h.tree, h.objects, hwrites, h.asks, h.childObs, h.valueObs, h.issued⟩, ⟨lost, hperm⟩,
        h.sees⟩
  | some w' =>
    have hi' : s'.writes[ownIndex C.write s.writes i]? = some w' := by
      rw [h.writes]
      exact getElem?_ownIndex hi hw
    have hfirst' := C.firstOfClient h.toMirrors hi hw hfirst
    have hwrites : s'.writes.eraseIdx (ownIndex C.write s.writes i) =
        (s.writes.eraseIdx i).filterMap C.write := by
      rw [h.writes]
      exact eraseIdx_ownIndex hi hw
    cases ok with
    | true =>
      refine .inr ⟨_, _, .commit, step_of_transition (.apply hi' hfirst'), ⟨⟨?_, h.objects, hwrites,
        h.asks, h.childObs, h.valueObs, h.issued⟩, htasks ?_, h.sees⟩⟩
      · rw [State.applied_tree, h.tree]
        exact (C.tree_own _ hw).symm
      · rw [List.filterMap_append, C.events_own hI h.toMirrors hmem hw, C.ack_own true hw]
    | false =>
      exact .inr ⟨_, _, .commit, step_of_transition (.reject hi' hfirst'), ⟨⟨h.tree, h.objects,
        hwrites, h.asks, h.childObs, h.valueObs, h.issued⟩, htasks (C.ack_own false hw), h.sees⟩⟩

theorem step_serve (hI : Inv s) (h : C.Shows s s') {i : ℕ} {a : Ask Loc Cb Blob} (ok : Bool)
    (hi : s.asks[i]? = some (c, a)) :
    C.Shows (s.served i c a ok) s' ∨ ∃ l' t', C.Shadows (.serve i ok) l' ∧
      Realtime.step P' s' l' = some t' ∧ C.Shows (s.served i c a ok) t' := by
  have hmem := List.mem_of_getElem? hi
  obtain ⟨lost, hlost⟩ := h.tasks
  cases ha : C.ask (c, a) with
  | none =>
    refine .inl ?_
    obtain ⟨hchild, hvalue⟩ := C.observers_other hI hmem ha
    refine ⟨⟨h.tree, ?_, ?_, ?_, ?_, ?_, h.issued⟩, ⟨lost, ?_⟩, h.sees⟩
    · exact h.objects.trans (C.store_other ok _ hI hmem ha).symm
    · exact h.writes
    · rw [h.asks, State.served_asks, filterMap_eraseIdx_of_none hi ha]
    · rw [h.childObs, State.served_childObs, List.filterMap_append, hchild, List.append_nil]
    · rw [h.valueObs, State.served_valueObs, List.filterMap_append, hvalue, List.append_nil]
    · rw [State.served_tasks, List.filterMap_append, C.answer_other ok hI hmem ha, List.append_nil]
      exact hlost
  | some x =>
    obtain ⟨c', a'⟩ := x
    obtain ⟨hchild, hvalue⟩ := C.observers_own ha
    have hi' : s'.asks[ownIndex C.ask s.asks i]? = some (c', a') := by
      rw [h.asks]
      exact getElem?_ownIndex hi ha
    refine .inr ⟨.serve (ownIndex C.ask s.asks i) ok, _, .serve, step_of_transition (.serve hi'), ?_⟩
    refine ⟨⟨h.tree, ?_, h.writes, ?_, ?_, ?_, h.issued⟩, ⟨lost, ?_⟩, h.sees⟩
    · exact (congrArg (a'.store ok) h.objects).trans (C.store_own ok _ ha).symm
    · rw [State.served_asks, State.served_asks, h.asks]
      exact eraseIdx_ownIndex hi ha
    · rw [State.served_childObs, State.served_childObs, List.filterMap_append, hchild, h.childObs]
    · rw [State.served_valueObs, State.served_valueObs, List.filterMap_append, hvalue, h.valueObs]
    · rw [State.served_tasks, State.served_tasks, List.filterMap_append,
        C.answer_own ok hI h.toMirrors (C.view hI h.toMirrors) hmem ha, List.append_assoc]
      refine (hlost.append_right _).trans ?_
      rw [List.append_assoc]
      exact List.perm_append_comm.append_left _

theorem step_die (hI : Inv s) (h : C.Shows s s') (c : Client) :
    ∃ t', Realtime.step P' s' (.die (C.client c)) = some t' ∧
      C.Shows (s.died c (P.die c s.app)) t' := by
  obtain ⟨lost, hlost⟩ := h.tasks
  refine ⟨_, rfl, ⟨⟨h.tree, h.objects, ?_, ?_, ?_, ?_, h.issued⟩,
    ⟨lost.filter fun t => decide (t.client ≠ C.client c), ?_⟩, C.die c hI h.sees⟩⟩
  · rw [State.died_writes, State.died_writes, h.writes]
    exact (C.filterMap_others (fun _ _ => C.write_client) s.writes).symm
  · rw [State.died_asks, State.died_asks, h.asks]
    exact (C.filterMap_others (fun _ _ => C.ask_client) s.asks).symm
  · rw [State.died_childObs, State.died_childObs, h.childObs]
    exact (C.filterMap_others (fun _ _ => C.childObs_client) s.childObs).symm
  · rw [State.died_valueObs, State.died_valueObs, h.valueObs]
    exact (C.filterMap_others (fun _ _ => C.valueObs_client) s.valueObs).symm
  · have hothers : (s.tasks.filter fun t => decide (t.client ≠ c)).filterMap C.task =
        (s.tasks.filterMap C.task).filter fun t => decide (t.client ≠ C.client c) :=
      C.filterMap_others (fun _ _ => C.task_client) s.tasks
    rw [State.died_tasks, State.died_tasks, hothers, ← List.filter_append]
    exact hlost.filter _

/-- A step of the process is one of the component, or nothing to it. -/
theorem step (hI : Inv s) (hmay : ∀ a e, l = .press a e → May a) (h : C.Shows s s')
    (hs : Transition P s l t) :
    C.Shows t s' ∨
      ∃ l' t', C.Shadows l l' ∧ Realtime.step P' s' l' = some t' ∧ C.Shows t t' := by
  cases hs with
  | @press a e c app cmds hkey hact =>
    rcases C.shows_of_follows h.toMirrors hkey (C.act hI (hmay a e rfl) h.sees hact)
      (t := s.pressed a e c app cmds) ⟨rfl, rfl, rfl, rfl, rfl, rfl, rfl⟩ h.tasks with
      hstays | ⟨b, t', hstep, ht⟩
    · exact .inl hstays
    · exact .inr ⟨_, t', .press, hstep, ht⟩
  | run hkey hi hrun => exact C.step_run hI h hkey hi hrun
  | apply hi hfirst => exact C.step_commit hI h true hi hfirst
  | reject hi hfirst => exact C.step_commit hI h false hi hfirst
  | serve hi => exact C.step_serve hI h _ hi
  | die =>
    obtain ⟨t', hstep, ht⟩ := C.step_die hI h _
    exact .inr ⟨_, t', .die, hstep, ht⟩

/-- Every run of the process is a run of the component. -/
theorem reaches {ok : State Loc Client Cb Blob App Action → Label Client Action → Prop}
    {ok' : State Loc' Client' Cb' Blob' App' Action' → Label Client' Action' → Prop}
    (hinv : ∀ u, Reaches (Realtime.step P) ok s u → Inv u)
    (hmay : ∀ u a e, ok u (.press a e) → May a)
    (hok : ∀ u u' l l', C.Shows u u' → ok u l → C.Shadows l l' → ok' u' l')
    (h₀ : C.Shows s s') (h : Reaches (Realtime.step P) ok s t) :
    ∃ t', Reaches (Realtime.step P') ok' s' t' ∧ C.Shows t t' := by
  induction h with
  | refl => exact ⟨s', .refl, h₀⟩
  | @tail t u l hrun hl hstep ih =>
    obtain ⟨t', hrun', ht⟩ := ih
    have hpress : ∀ a e, l = .press a e → May a := by
      rintro a e rfl
      exact hmay t a e hl
    rcases C.step (hinv t hrun) hpress ht (transition_of_step hstep) with hstays | ⟨l', u', hl', hstep', hu⟩
    · exact ⟨t', hrun', hstays⟩
    · exact ⟨u', hrun'.tail (hok _ _ _ _ ht hl hl') hstep', hu⟩

end Component

/-! ## What is under way -/

section Underway

variable [DecidableEq Loc] [DecidableEq Client] {P : Program Loc Client Cb Blob App Action}
  {s s' : State Loc Client Cb Blob App Action} {l : Label Client Action}
  {Q : Client → Cmd Loc Cb Blob → Prop}

/-- The commands under way meet `Q`, and so did those that attached the observers. -/
structure Underway (Q : Client → Cmd Loc Cb Blob → Prop)
    (s : State Loc Client Cb Blob App Action) : Prop where
  writes : ∀ w ∈ s.writes, Q w.client (.write w.op w.completion)
  asks : ∀ c a, (c, a) ∈ s.asks → Q c (.ask a)
  childObs : ∀ o ∈ s.childObs, Q o.client (.ask (.childAdded o.path o.cb))
  valueObs : ∀ o ∈ s.valueObs, Q o.client (.ask (.value o.loc o.cb))

omit [DecidableEq Loc] [DecidableEq Client] in
theorem Underway.initial (h : Initial s) : Underway Q s where
  writes w hw := by simp [h.writes] at hw
  asks c a ha := by simp [h.asks] at ha
  childObs o ho := by simp [h.childObs] at ho
  valueObs o ho := by simp [h.valueObs] at ho

/-- What every press and every callback issues is all that is ever under way. -/
theorem Underway.step (h : Underway Q s) (hs : Transition P s l s')
    (hpress : ∀ a e c app cmds, P.act a e s.app = some (c, app, cmds) → ∀ cmd ∈ cmds, Q c cmd)
    (hrun : ∀ t e app cmds, t ∈ s.tasks → P.handle t.client e t.cb t.input s.app = (app, cmds) →
      ∀ cmd ∈ cmds, Q t.client cmd) : Underway Q s' := by
  have issue : ∀ {c : Client} {cmds : List (Cmd Loc Cb Blob)}, (∀ cmd ∈ cmds, Q c cmd) →
      (∀ w ∈ s.writes ++ newWrites c cmds, Q w.client (.write w.op w.completion)) ∧
        ∀ c' a, (c', a) ∈ s.asks ++ newAsks c cmds → Q c' (.ask a) := by
    intro c cmds hcmds
    refine ⟨fun w hw => ?_, fun c' a ha => ?_⟩
    · rcases List.mem_append.1 hw with hw | hw
      · exact h.writes w hw
      · obtain ⟨rfl, hcmd⟩ := mem_newWrites.1 hw
        exact hcmds _ hcmd
    · rcases List.mem_append.1 ha with ha | ha
      · exact h.asks c' a ha
      · obtain ⟨rfl, hcmd⟩ := mem_newAsks.1 ha
        exact hcmds _ hcmd
  cases hs with
  | press hkey hact =>
    obtain ⟨hwrites, hasks⟩ := issue (hpress _ _ _ _ _ hact)
    exact ⟨hwrites, hasks, h.childObs, h.valueObs⟩
  | run hkey ht hran =>
    obtain ⟨hwrites, hasks⟩ := issue (hrun _ _ _ _ (List.mem_of_getElem? ht) hran)
    exact ⟨hwrites, hasks, h.childObs, h.valueObs⟩
  | apply | reject =>
    exact ⟨fun w hw => h.writes w (List.mem_of_mem_eraseIdx hw), h.asks, h.childObs, h.valueObs⟩
  | @serve i c a ok ha =>
    have hQ := h.asks _ _ (List.mem_of_getElem? ha)
    refine ⟨h.writes, fun c' a' ha' => h.asks c' a' (List.mem_of_mem_eraseIdx ha'),
      fun o ho => ?_, fun o ho => ?_⟩
    · rcases List.mem_append.1 ho with ho | ho
      · exact h.childObs o ho
      · obtain ⟨rfl, rfl⟩ := mem_childObserver.1 ho
        exact hQ
    · rcases List.mem_append.1 ho with ho | ho
      · exact h.valueObs o ho
      · obtain ⟨rfl, rfl⟩ := mem_valueObserver.1 ho
        exact hQ
  | die =>
    exact ⟨fun w hw => h.writes w (List.mem_filter.1 hw).1,
      fun c' a' ha' => h.asks c' a' (List.mem_filter.1 ha').1,
      fun o ho => h.childObs o (List.mem_filter.1 ho).1,
      fun o ho => h.valueObs o (List.mem_filter.1 ho).1⟩

end Underway

end Realtime
