import FLChat.Realtime.Component

/-!
# Finer callbacks

A program may tell apart callbacks that another one does not, as where two view controllers ask the
server for the same thing and go on differently. Forgetting the difference is a map of the callbacks.
Where presses and callbacks agree under it, the coarser program is a component of the finer one, to
which everything on the way belongs (`Component.relabel`).
-/

namespace Realtime

variable {Loc Client Cb Cb' Cb'' Blob App App' Action Action' : Type}

/-! ## Maps of callbacks -/

def Ask.map (f : Cb → Cb') : Ask Loc Cb Blob → Ask Loc Cb' Blob
  | .childAdded p cb => .childAdded p (f cb)
  | .value l cb => .value l (f cb)
  | .single l cb => .single l (f cb)
  | .putData p data cb => .putData p data (f cb)
  | .downloadURL p cb => .downloadURL p (f cb)

def ChildObserver.map (f : Cb → Cb') (o : ChildObserver Client Cb) : ChildObserver Client Cb' :=
  ⟨o.client, o.path, f o.cb⟩

def ValueObserver.map (f : Cb → Cb') (o : ValueObserver Loc Client Cb) :
    ValueObserver Loc Client Cb' :=
  ⟨o.client, o.loc, f o.cb⟩

theorem Ask.map_map (f : Cb → Cb') (g : Cb' → Cb'') (a : Ask Loc Cb Blob) :
    (a.map f).map g = a.map (g ∘ f) := by
  cases a <;> rfl

theorem Ask.map_id (a : Ask Loc Cb Blob) : a.map id = a := by
  cases a <;> rfl

theorem Ask.childObserver_map (f : Cb → Cb') (c : Client) (a : Ask Loc Cb Blob) :
    (a.map f).childObserver c = (a.childObserver c).map (ChildObserver.map f) := by
  cases a <;> rfl

theorem Ask.valueObserver_map (f : Cb → Cb') (c : Client) (a : Ask Loc Cb Blob) :
    (a.map f).valueObserver c = (a.valueObserver c).map (ValueObserver.map f) := by
  cases a <;> rfl

theorem Ask.store_map (f : Cb → Cb') (a : Ask Loc Cb Blob) (ok : Bool)
    (objects : Path → Option (Object Blob)) : (a.map f).store ok objects = a.store ok objects := by
  cases a <;> cases ok <;> rfl

variable [Schema Loc]

def Cmd.map (f : Cb → Cb') : Cmd Loc Cb Blob → Cmd Loc Cb' Blob
  | .write op completion => .write op (completion.map f)
  | .ask a => .ask (a.map f)

def Write.map (f : Cb → Cb') (w : Write Loc Client Cb) : Write Loc Client Cb' :=
  ⟨w.client, w.op, w.completion.map f⟩

def Task.map (f : Cb → Cb') (t : Task Loc Client Cb) : Task Loc Client Cb' :=
  ⟨t.client, f t.cb, t.input⟩

theorem Cmd.map_map (f : Cb → Cb') (g : Cb' → Cb'') (cmd : Cmd Loc Cb Blob) :
    (cmd.map f).map g = cmd.map (g ∘ f) := by
  cases cmd with
  | write op completion => exact congrArg (Cmd.write op) (Option.map_map g f completion)
  | ask a => exact congrArg Cmd.ask (a.map_map f g)

theorem Cmd.map_id (cmd : Cmd Loc Cb Blob) : cmd.map id = cmd := by
  cases cmd with
  | write op completion => exact congrArg (Cmd.write op) (Option.map_id_apply)
  | ask a => exact congrArg Cmd.ask a.map_id

theorem newWrites_map (f : Cb → Cb') (c : Client) (cmds : List (Cmd Loc Cb Blob)) :
    newWrites c (cmds.map (Cmd.map f)) = (newWrites c cmds).map (Write.map f) := by
  rw [newWrites, newWrites, List.filterMap_map, List.map_filterMap]
  refine List.filterMap_congr fun cmd _ => ?_
  cases cmd <;> rfl

theorem newAsks_map (f : Cb → Cb') (c : Client) (cmds : List (Cmd Loc Cb Blob)) :
    newAsks c (cmds.map (Cmd.map f)) = (newAsks c cmds).map fun x => (x.1, x.2.map f) := by
  rw [newAsks, newAsks, List.filterMap_map, List.map_filterMap]
  refine List.filterMap_congr fun cmd _ => ?_
  cases cmd <;> rfl

theorem Write.ack_map (f : Cb → Cb') (w : Write Loc Client Cb) (ok : Bool) :
    (w.map f).ack ok = (w.ack ok).map (Task.map f) := by
  obtain ⟨c, op, completion⟩ := w
  cases completion <;> rfl

/-! ## The component -/

/-- Everything is the component's, with its callbacks by `f`. -/
def Projection.relabel (P : Program Loc Client Cb Blob App Action)
    (P' : Program Loc Client Cb' Blob App' Action') (f : Cb → Cb') (Sees : App → App' → Prop) :
    Projection P P' where
  client := id
  tree := id
  objects := id
  write w := some (w.map f)
  ask x := some (x.1, x.2.map f)
  task t := some (t.map f)
  childObs o := some (o.map f)
  valueObs o := some (o.map f)
  Sees := Sees

section Relabel

variable {P : Program Loc Client Cb Blob App Action} {P' : Program Loc Client Cb' Blob App' Action'}
  {f : Cb → Cb'} {Sees : App → App' → Prop} {s : State Loc Client Cb Blob App Action}
  {s' : State Loc Client Cb' Blob App' Action'} {c : Client} {cmds : List (Cmd Loc Cb Blob)}

theorem Projection.carries_relabel :
    (Projection.relabel P P' f Sees).Carries c cmds (cmds.map (Cmd.map f)) where
  writes := (congrFun List.filterMap_eq_map' _).trans (newWrites_map f c cmds).symm
  asks := (congrFun List.filterMap_eq_map' _).trans (newAsks_map f c cmds).symm

variable [DecidableEq Loc] [DecidableEq Client]

omit [DecidableEq Client] in
theorem Projection.events_relabel (h : (Projection.relabel P P' f Sees).Mirrors s s') (op : Op Loc) :
    (s.childEvents op ++ s.valueEvents op).map (Task.map f) =
      s'.childEvents op ++ s'.valueEvents op := by
  have hchild : s'.childObs = s.childObs.map (ChildObserver.map f) :=
    h.childObs.trans (congrFun List.filterMap_eq_map' _)
  have hvalue : s'.valueObs = s.valueObs.map (ValueObserver.map f) :=
    h.valueObs.trans (congrFun List.filterMap_eq_map' _)
  have htree : s'.tree = s.tree := h.tree
  rw [List.map_append]
  congr 1
  · cases op with
    | remove => rfl
    | update l v =>
      simp only [State.childEvents, hchild, htree, List.filterMap_map, List.map_filterMap]
      refine List.filterMap_congr fun o _ => ?_
      simp only [Function.comp_apply, ChildObserver.map]
      cases Tree.childKey o.path l with
      | none => rfl
      | some k => by_cases hk : k ∈ s.tree.children o.path <;> simp [hk, Task.map]
  · simp only [State.valueEvents, hvalue, htree, List.filterMap_map, List.map_filterMap]
    refine List.filterMap_congr fun o _ => ?_
    simp only [Function.comp_apply, ValueObserver.map]
    by_cases ho : op.touches o.loc = true <;> simp [ho, Task.map]

theorem Projection.answer_relabel (h : (Projection.relabel P P' f Sees).Mirrors s s')
    (hview : s'.view c = s.view c) (a : Ask Loc Cb Blob) (ok : Bool) :
    (s.answer c a ok).map (Task.map f) = s'.answer c (a.map f) ok := by
  have htree : s'.tree = s.tree := h.tree
  have hobjects : s'.objects = s.objects := h.objects
  cases a with
  | childAdded p cb =>
    simp only [State.answer, Ask.map, htree, List.map_map]
    rfl
  | value | single =>
    simp only [State.answer, Ask.map, hview]
    rfl
  | putData => rfl
  | downloadURL =>
    simp only [State.answer, Ask.map, hobjects]
    rfl

/-- A program is a component of one with finer callbacks that agrees with it. -/
def Component.relabel (P : Program Loc Client Cb Blob App Action)
    (P' : Program Loc Client Cb' Blob App' Action') (f : Cb → Cb') (Sees : App → App' → Prop)
    (act : ∀ {app app' a e c next cmds}, Sees app app' → P.act a e app = some (c, next, cmds) →
      (Projection.relabel P P' f Sees).Follows e c next cmds app')
    (handle : ∀ {app app' c e cb input next cmds}, Sees app app' →
      P.handle c e cb input app = (next, cmds) →
        ∃ next', P'.handle c e (f cb) input app' = (next', cmds.map (Cmd.map f)) ∧ Sees next next')
    (die : ∀ {app app'} c, Sees app app' → Sees (P.die c app) (P'.die c app')) :
    Component P P' (fun _ => True) (fun _ => True) where
  toProjection := .relabel P P' f Sees
  client_inj := Function.injective_id
  write_client := by rintro w _ ⟨⟩; rfl
  ask_client := by rintro x _ ⟨⟩; rfl
  task_client := by rintro t _ ⟨⟩; rfl
  childObs_client := by rintro o _ ⟨⟩; rfl
  valueObs_client := by rintro o _ ⟨⟩; rfl
  tree_own := by rintro w _ t ⟨⟩; rfl
  tree_other := by rintro s w t - - ⟨⟩
  ack_own := by
    rintro w _ ok ⟨⟩
    exact (congrFun List.filterMap_eq_map' _).trans (w.ack_map f ok).symm
  ack_other := by rintro s w ok - - ⟨⟩
  events_own := by
    rintro s s' w _ - h - ⟨⟩
    exact (congrFun List.filterMap_eq_map' _).trans (Projection.events_relabel h w.op)
  events_other := by rintro s w - - ⟨⟩
  store_own := by
    rintro c a c' a' ok o ⟨⟩
    exact (a.store_map f ok o).symm
  store_other := by rintro s c a ok o - - ⟨⟩
  observers_own := by
    rintro c a c' a' ⟨⟩
    exact ⟨(congrFun List.filterMap_eq_map' _).trans (a.childObserver_map f c).symm,
      (congrFun List.filterMap_eq_map' _).trans (a.valueObserver_map f c).symm⟩
  observers_other := by rintro s c a - - ⟨⟩
  answer_own := by
    rintro s s' c a c' a' ok - h hview - ⟨⟩
    exact (congrFun List.filterMap_eq_map' _).trans (Projection.answer_relabel h hview a ok)
  answer_other := by rintro s c a ok - - ⟨⟩
  act _ _ hsees hact := act hsees hact
  handle {s e t app cmds app'} _ hsees _ hrun := by
    obtain ⟨next', hrun', hsees'⟩ := handle hsees hrun
    exact .inr (.runs (t.map f) next' (cmds.map (Cmd.map f)) rfl hrun' Projection.carries_relabel
      hsees')
  die c _ hsees := die c hsees

end Relabel

end Realtime
