import FLChat.Realtime.Machine

/-!
# Where everything in flight comes from

Every write, request and observer of a reachable state was issued by a press or a callback that the
log holds (`Issued`), every task answers one of them (`TaskOrigin`), and the tree holds nothing but
what accepted writes put there (`Origin`, `PresentOrRemoved`). This says once for all
programs what would otherwise be one invariant for each kind of write: a program only has to invert
its own `act` and `handle`.
-/

namespace Realtime

variable {Loc Client Cb Blob App Action : Type} [Schema Loc]

/-- Nothing has happened yet: nothing is in flight and nothing is observed. -/
structure Initial (s : State Loc Client Cb Blob App Action) : Prop where
  writes : s.writes = []
  asks : s.asks = []
  tasks : s.tasks = []
  childObs : s.childObs = []
  valueObs : s.valueObs = []
  log : s.log = []

@[simp] theorem mem_newWrites {c : Client} {cmds : List (Cmd Loc Cb Blob)}
    {w : Write Loc Client Cb} :
    w ∈ newWrites c cmds ↔ w.client = c ∧ .write w.op w.completion ∈ cmds := by
  obtain ⟨c', op, cb⟩ := w
  simp only [newWrites, List.mem_filterMap]
  constructor
  · rintro ⟨cmd, hcmd, h⟩
    cases cmd with
    | write op' cb' =>
      simp only [Option.some.injEq, Write.mk.injEq] at h
      obtain ⟨rfl, rfl, rfl⟩ := h
      exact ⟨rfl, hcmd⟩
    | ask a => cases h
  · rintro ⟨rfl, hcmd⟩
    exact ⟨_, hcmd, rfl⟩

@[simp] theorem mem_newAsks {c : Client} {cmds : List (Cmd Loc Cb Blob)}
    {x : Client × Ask Loc Cb Blob} :
    x ∈ newAsks c cmds ↔ x.1 = c ∧ .ask x.2 ∈ cmds := by
  obtain ⟨c', a⟩ := x
  simp only [newAsks, List.mem_filterMap]
  constructor
  · rintro ⟨cmd, hcmd, h⟩
    cases cmd with
    | write op' cb' => cases h
    | ask a' =>
      simp only [Option.some.injEq, Prod.mk.injEq] at h
      obtain ⟨rfl, rfl⟩ := h
      exact ⟨rfl, hcmd⟩
  · rintro ⟨rfl, hcmd⟩
    exact ⟨_, hcmd, rfl⟩

theorem mem_ack {w : Write Loc Client Cb} {ok : Bool} {t : Task Loc Client Cb} :
    t ∈ w.ack ok ↔ ∃ cb, w.completion = some cb ∧ t = ⟨w.client, cb, .acked ok⟩ := by
  obtain ⟨c, op, comp⟩ := w
  cases comp <;> simp [Write.ack]

omit [Schema Loc] in
theorem mem_childObserver {c : Client} {a : Ask Loc Cb Blob} {o : ChildObserver Client Cb} :
    o ∈ a.childObserver c ↔ o.client = c ∧ a = .childAdded o.path o.cb := by
  obtain ⟨c', p, cb⟩ := o
  cases a <;> simp [Ask.childObserver]
  grind

omit [Schema Loc] in
theorem mem_valueObserver {c : Client} {a : Ask Loc Cb Blob} {o : ValueObserver Loc Client Cb} :
    o ∈ a.valueObserver c ↔ o.client = c ∧ a = .value o.loc o.cb := by
  obtain ⟨c', l, cb⟩ := o
  cases a <;> simp [Ask.valueObserver]
  grind

theorem mem_childEvents {s : State Loc Client Cb Blob App Action} {op : Op Loc}
    {t : Task Loc Client Cb} :
    t ∈ s.childEvents op ↔ ∃ o ∈ s.childObs, ∃ l v k, op = .update l v ∧
      Tree.childKey o.path l = some k ∧ k ∉ s.tree.children o.path ∧
      t = ⟨o.client, o.cb, .childAdded k⟩ := by
  cases op with
  | remove p => simp [State.childEvents]
  | update l v =>
    simp only [State.childEvents, List.mem_filterMap]
    constructor
    · rintro ⟨o, ho, h⟩
      split at h
      · cases h
      · next k hk =>
        split at h
        · cases h
        · next hnew =>
          cases h
          exact ⟨o, ho, l, v, k, rfl, hk, hnew, rfl⟩
    · rintro ⟨o, ho, l', v', k, heq, hk, hnew, rfl⟩
      cases heq
      exact ⟨o, ho, by simp [hk, hnew]⟩

theorem mem_valueEvents [DecidableEq Loc] {s : State Loc Client Cb Blob App Action} {op : Op Loc}
    {t : Task Loc Client Cb} :
    t ∈ s.valueEvents op ↔ ∃ o ∈ s.valueObs, op.touches o.loc = true ∧
      t = ⟨o.client, o.cb, .value o.loc ((op.apply s.tree).lookup o.loc)⟩ := by
  simp only [State.valueEvents, List.mem_filterMap]
  constructor
  · rintro ⟨o, ho, h⟩
    split at h
    · next ht =>
      cases h
      exact ⟨o, ho, ht, rfl⟩
    · cases h
  · rintro ⟨o, ho, ht, rfl⟩
    exact ⟨o, ho, by simp [ht]⟩

/-! ## The log -/

/-- What is known of the program's own state when an event happens. -/
abbrev Guard (Loc Client Cb Blob App Action : Type) [Schema Loc] :=
  Event Loc Client Cb Blob Action → App → Prop

/-- The step `l` meets the guard in state `s`. -/
def Guard.Holds (G : Guard Loc Client Cb Blob App Action)
    (s : State Loc Client Cb Blob App Action) : Label Client Action → Prop
  | .press a e => G (.pressed a e) s.app
  | .run i e => ∀ t, s.tasks[i]? = some t → G (.ran t e) s.app
  | _ => True

/-- A press or callback of the log issued `cmd` on client `c`, in a program state that meets the
guard. -/
def Issued (P : Program Loc Client Cb Blob App Action) (G : Guard Loc Client Cb Blob App Action)
    (log : List (Event Loc Client Cb Blob Action)) (c : Client) (cmd : Cmd Loc Cb Blob) : Prop :=
  (∃ a e app app' cmds, .pressed a e ∈ log ∧ G (.pressed a e) app ∧
    P.act a e app = some (c, app', cmds) ∧ cmd ∈ cmds) ∨
  (∃ t e app, .ran t e ∈ log ∧ G (.ran t e) app ∧ t.client = c ∧
    cmd ∈ (P.handle c e t.cb t.input app).2)

theorem Issued.mono {P : Program Loc Client Cb Blob App Action}
    {G : Guard Loc Client Cb Blob App Action}
    {log log' : List (Event Loc Client Cb Blob Action)} (hlog : ∀ ev ∈ log, ev ∈ log')
    {c : Client} {cmd : Cmd Loc Cb Blob} (h : Issued P G log c cmd) : Issued P G log' c cmd := by
  rcases h with ⟨a, e, app, app', cmds, hev, h⟩ | ⟨t, e, app, hev, h⟩
  · exact .inl ⟨a, e, app, app', cmds, hlog _ hev, h⟩
  · exact .inr ⟨t, e, app, hlog _ hev, h⟩

/-- What a task answers, by the input it carries. -/
def TaskOrigin (P : Program Loc Client Cb Blob App Action)
    (G : Guard Loc Client Cb Blob App Action)
    (log : List (Event Loc Client Cb Blob Action)) (t : Task Loc Client Cb) : Prop :=
  match t.input with
  | .acked ok => ∃ op, Issued P G log t.client (.write op (some t.cb)) ∧
      .resolved t.client op ok ∈ log
  | .childAdded k => ∃ p l c v, Issued P G log t.client (.ask (.childAdded p t.cb)) ∧
      .resolved c (.update l v) true ∈ log ∧ Tree.childKey p l = some k
  | .value l _ => Issued P G log t.client (.ask (.single l t.cb)) ∨
      Issued P G log t.client (.ask (.value l t.cb))
  | .stored ok => ∃ p d, Issued P G log t.client (.ask (.putData p d t.cb)) ∧
      .served t.client (.putData p d t.cb) ok ∈ log
  | .url u => ∃ p, Issued P G log t.client (.ask (.downloadURL p t.cb)) ∧
      ∀ u' ∈ u, u'.path = p

theorem TaskOrigin.mono {P : Program Loc Client Cb Blob App Action}
    {G : Guard Loc Client Cb Blob App Action}
    {log log' : List (Event Loc Client Cb Blob Action)} (hlog : ∀ ev ∈ log, ev ∈ log')
    {t : Task Loc Client Cb} (h : TaskOrigin P G log t) : TaskOrigin P G log' t := by
  obtain ⟨c, cb, input⟩ := t
  cases input with
  | acked ok =>
    obtain ⟨op, h, hr⟩ := h
    exact ⟨op, h.mono hlog, hlog _ hr⟩
  | childAdded k =>
    obtain ⟨p, l, c', v, h, ha, hk⟩ := h
    exact ⟨p, l, c', v, h.mono hlog, hlog _ ha, hk⟩
  | value l v => exact h.imp (.mono hlog) (.mono hlog)
  | stored ok =>
    obtain ⟨p, d, h, hs⟩ := h
    exact ⟨p, d, h.mono hlog, hlog _ hs⟩
  | url u =>
    obtain ⟨p, h, hu⟩ := h
    exact ⟨p, h.mono hlog, hu⟩

/-- An event of the log has its origin in the log. -/
def EventOrigin (P : Program Loc Client Cb Blob App Action)
    (G : Guard Loc Client Cb Blob App Action)
    (log : List (Event Loc Client Cb Blob Action)) : Event Loc Client Cb Blob Action → Prop
  | .resolved c op _ => ∃ cb, Issued P G log c (.write op cb)
  | .served c a _ => Issued P G log c (.ask a)
  | .ran t _ => TaskOrigin P G log t
  | .pressed .. | .died _ => True

theorem EventOrigin.mono {P : Program Loc Client Cb Blob App Action}
    {G : Guard Loc Client Cb Blob App Action}
    {log log' : List (Event Loc Client Cb Blob Action)} (hlog : ∀ ev ∈ log, ev ∈ log')
    {ev : Event Loc Client Cb Blob Action} (h : EventOrigin P G log ev) : EventOrigin P G log' ev := by
  cases ev with
  | resolved c op ok => exact h.imp fun cb hcb => hcb.mono hlog
  | served c a ok => exact Issued.mono hlog h
  | ran t e => exact TaskOrigin.mono hlog h
  | pressed a e => trivial
  | died c => trivial

/-- What happened since the state `s₀` of the run. -/
def since (s₀ s : State Loc Client Cb Blob App Action) : List (Event Loc Client Cb Blob Action) :=
  s.log.take (s.log.length - s₀.log.length)

@[simp] theorem since_self (s : State Loc Client Cb Blob App Action) : since s s = [] := by
  simp [since]

theorem since_append {s₀ s : State Loc Client Cb Blob App Action} (h : s₀.log <:+ s.log) :
    since s₀ s ++ s₀.log = s.log := by
  obtain ⟨new, hnew⟩ := h
  simp [since, ← hnew]

theorem mem_since {s₀ s : State Loc Client Cb Blob App Action}
    {ev : Event Loc Client Cb Blob Action} (h : s₀.log <:+ s.log) (hev : ev ∈ s.log)
    (hold : ev ∉ s₀.log) : ev ∈ since s₀ s := by
  rw [← since_append h] at hev
  exact (List.mem_append.1 hev).resolve_right hold

theorem since_cons {s₀ s s' : State Loc Client Cb Blob App Action}
    {ev : Event Loc Client Cb Blob Action} (h : s₀.log <:+ s.log) (hlog : s'.log = ev :: s.log) :
    since s₀ s' = ev :: since s₀ s := by
  have hle := h.length_le
  simp only [since, hlog, List.length_cons]
  rw [show s.log.length + 1 - s₀.log.length = s.log.length - s₀.log.length + 1 by omega,
    List.take_succ_cons]

section Step

variable [DecidableEq Loc] [DecidableEq Client] {P : Program Loc Client Cb Blob App Action}
  {s s' : State Loc Client Cb Blob App Action} {l : Label Client Action}

/-- A step logs one event. -/
theorem Transition.log_cons (h : Transition P s l s') : ∃ ev, s'.log = ev :: s.log := by
  cases h <;> exact ⟨_, rfl⟩

/-- The log only grows. -/
theorem log_suffix {ok : State Loc Client Cb Blob App Action → Label Client Action → Prop}
    (h : Reaches (step P) ok s s') : s.log <:+ s'.log := by
  induction h with
  | refl => exact List.suffix_refl _
  | tail _ _ hstep ih =>
    obtain ⟨ev, hev⟩ := (transition_of_step hstep).log_cons
    rw [hev]
    exact ih.trans (List.suffix_cons _ _)

theorem since_step {ok : State Loc Client Cb Blob App Action → Label Client Action → Prop}
    {s₀ : State Loc Client Cb Blob App Action} (h : Reaches (step P) ok s₀ s)
    (hs : Transition P s l s') : ∃ ev, s'.log = ev :: s.log ∧ since s₀ s' = ev :: since s₀ s := by
  obtain ⟨ev, hlog⟩ := hs.log_cons
  exact ⟨ev, hlog, since_cons (log_suffix h) hlog⟩

theorem Transition.log_mono (h : Transition P s l s') : ∀ ev ∈ s.log, ev ∈ s'.log := by
  obtain ⟨ev, hev⟩ := h.log_cons
  exact fun _ h => hev ▸ List.mem_cons_of_mem _ h

end Step

/-- Everything in flight, and everything that happened, has its origin in the log. -/
structure Origin (P : Program Loc Client Cb Blob App Action)
    (G : Guard Loc Client Cb Blob App Action)
    (s : State Loc Client Cb Blob App Action) : Prop where
  tree : ∀ l ∈ s.tree, ∃ c v, .resolved c (.update l v) true ∈ s.log
  writes : ∀ w ∈ s.writes, Issued P G s.log w.client (.write w.op w.completion)
  asks : ∀ x ∈ s.asks, Issued P G s.log x.1 (.ask x.2)
  childObs : ∀ o ∈ s.childObs, Issued P G s.log o.client (.ask (.childAdded o.path o.cb))
  valueObs : ∀ o ∈ s.valueObs, Issued P G s.log o.client (.ask (.value o.loc o.cb))
  tasks : ∀ t ∈ s.tasks, TaskOrigin P G s.log t
  log : ∀ ev ∈ s.log, EventOrigin P G s.log ev

namespace Origin

variable {P : Program Loc Client Cb Blob App Action} {G : Guard Loc Client Cb Blob App Action}
  {s s' : State Loc Client Cb Blob App Action} {l : Label Client Action}

theorem initial (h : Initial s) (htree : s.tree = ∅) : Origin P G s where
  tree := by simp [htree]
  writes := by simp [h.writes]
  asks := by simp [h.asks]
  childObs := by simp [h.childObs]
  valueObs := by simp [h.valueObs]
  tasks := by simp [h.tasks]
  log := by simp [h.log]

/-- A step keeps the origins when all it adds has one. -/
theorem extend (h : Origin P G s) {ev : Event Loc Client Cb Blob Action}
    (hlog : s'.log = ev :: s.log)
    (hev : EventOrigin P G s'.log ev)
    (htree : ∀ l ∈ s'.tree, l ∈ s.tree ∨ ∃ c v, .resolved c (.update l v) true ∈ s'.log)
    (hwrites : ∀ w ∈ s'.writes, w ∈ s.writes ∨
      Issued P G s'.log w.client (.write w.op w.completion))
    (hasks : ∀ x ∈ s'.asks, x ∈ s.asks ∨ Issued P G s'.log x.1 (.ask x.2))
    (hchild : ∀ o ∈ s'.childObs, o ∈ s.childObs ∨
      Issued P G s'.log o.client (.ask (.childAdded o.path o.cb)))
    (hvalue : ∀ o ∈ s'.valueObs, o ∈ s.valueObs ∨
      Issued P G s'.log o.client (.ask (.value o.loc o.cb)))
    (htasks : ∀ t ∈ s'.tasks, t ∈ s.tasks ∨ TaskOrigin P G s'.log t) : Origin P G s' := by
  have hmono : ∀ ev ∈ s.log, ev ∈ s'.log := fun _ h => hlog ▸ List.mem_cons_of_mem _ h
  refine ⟨fun l hl => ?_, fun w hw => ?_, fun x hx => ?_, fun o ho => ?_, fun o ho => ?_,
    fun t ht => ?_, fun ev' hev' => ?_⟩
  · refine (htree l hl).elim (fun hl => ?_) id
    obtain ⟨c, v, hv⟩ := h.tree l hl
    exact ⟨c, v, hmono _ hv⟩
  · exact (hwrites w hw).elim (fun hw => (h.writes w hw).mono hmono) id
  · exact (hasks x hx).elim (fun hx => (h.asks x hx).mono hmono) id
  · exact (hchild o ho).elim (fun ho => (h.childObs o ho).mono hmono) id
  · exact (hvalue o ho).elim (fun ho => (h.valueObs o ho).mono hmono) id
  · exact (htasks t ht).elim (fun ht => (h.tasks t ht).mono hmono) id
  · rw [hlog] at hev'
    rcases List.mem_cons.1 hev' with rfl | hev'
    · exact hev
    · exact (h.log _ hev').mono hmono

variable [DecidableEq Loc] [DecidableEq Client]

/-- The answers to a request that was issued have their origin. -/
theorem answer (h : Origin P G s) {c : Client} {a : Ask Loc Cb Blob} {ok : Bool}
    {log : List (Event Loc Client Cb Blob Action)} (hlog : ∀ ev ∈ s.log, ev ∈ log)
    (hserved : .served c a ok ∈ log) (ha : Issued P G s.log c (.ask a)) :
    ∀ t ∈ s.answer c a ok, TaskOrigin P G log t := by
  intro t ht
  have ha' := ha.mono hlog
  cases a with
  | childAdded p cb =>
    obtain ⟨k, hk, rfl⟩ := List.mem_map.1 ht
    obtain ⟨l, hl, hlk⟩ := Tree.mem_children.1 hk
    obtain ⟨c', v, hv⟩ := h.tree l hl
    exact ⟨p, l, c', v, ha', hlog _ hv, hlk⟩
  | value l cb =>
    rw [List.mem_singleton.1 ht]
    exact .inr ha'
  | single l cb =>
    rw [List.mem_singleton.1 ht]
    exact .inl ha'
  | putData p d cb =>
    rw [List.mem_singleton.1 ht]
    exact ⟨p, d, ha', hserved⟩
  | downloadURL p cb =>
    rw [List.mem_singleton.1 ht]
    refine ⟨p, ha', fun u hu => ?_⟩
    split at hu
    · obtain ⟨o, -, rfl⟩ := Option.map_eq_some_iff.1 hu
      rfl
    · cases hu

/-- Every step keeps the origins: the event it logs issued what it adds. -/
theorem step (h : Origin P G s) (hs : Transition P s l s') (hG : G.Holds s l) :
    Origin P G s' := by
  have hmono := hs.log_mono
  cases hs with
  | @press a e c app cmds hkey hact =>
    have new : ∀ cmd ∈ cmds, Issued P G (Event.pressed a e :: s.log) c cmd := fun cmd hcmd =>
      .inl ⟨a, e, _, app, cmds, List.mem_cons_self, hG, hact, hcmd⟩
    refine h.extend rfl trivial (fun _ => .inl) (fun w hw => ?_) (fun x hx => ?_) (fun _ => .inl)
      (fun _ => .inl) (fun _ => .inl)
    · refine (List.mem_append.1 hw).imp_right fun hw => ?_
      obtain ⟨hc, hw⟩ := mem_newWrites.1 hw
      exact hc ▸ new _ hw
    · refine (List.mem_append.1 hx).imp_right fun hx => ?_
      obtain ⟨hc, hx⟩ := mem_newAsks.1 hx
      exact hc ▸ new _ hx
  | @run i e t app cmds hkey ht hrun =>
    have new : ∀ cmd ∈ cmds, Issued P G (Event.ran t e :: s.log) t.client cmd := fun cmd hcmd =>
      .inr ⟨t, e, s.app, List.mem_cons_self, hG t ht, rfl, by rw [hrun]; exact hcmd⟩
    refine h.extend rfl ((h.tasks t (List.mem_of_getElem? ht)).mono hmono) (fun _ => .inl)
      (fun w hw => ?_) (fun x hx => ?_) (fun _ => .inl) (fun _ => .inl)
      (fun _ ht => .inl (List.mem_of_mem_eraseIdx ht))
    · refine (List.mem_append.1 hw).imp_right fun hw => ?_
      obtain ⟨hc, hw⟩ := mem_newWrites.1 hw
      exact hc ▸ new _ hw
    · refine (List.mem_append.1 hx).imp_right fun hx => ?_
      obtain ⟨hc, hx⟩ := mem_newAsks.1 hx
      exact hc ▸ new _ hx
  | @apply i w hw hfirst =>
    have hiss := (h.writes w (List.mem_of_getElem? hw)).mono hmono
    refine h.extend rfl ⟨_, hiss⟩ (fun l hl => ?_)
      (fun _ hw => .inl (List.mem_of_mem_eraseIdx hw)) (fun _ => .inl) (fun _ => .inl)
      (fun _ => .inl) (fun t ht => (List.mem_append.1 ht).imp_right fun ht => ?_)
    · obtain ⟨c, op, cb⟩ := w
      cases op with
      | update l' v =>
        refine (Tree.mem_update.1 hl).symm.imp_right ?_
        rintro rfl
        exact ⟨c, v, List.mem_cons_self⟩
      | remove p => exact .inl (Tree.mem_remove.1 hl).1
    · rcases List.mem_append.1 ht with ht | ht
      · rcases List.mem_append.1 ht with ht | ht
        · obtain ⟨o, ho, l, v, k, hop, hk, -, rfl⟩ := mem_childEvents.1 ht
          exact ⟨o.path, l, w.client, v, (h.childObs o ho).mono hmono,
            by rw [← hop]; exact List.mem_cons_self, hk⟩
        · obtain ⟨o, ho, -, rfl⟩ := mem_valueEvents.1 ht
          exact .inr ((h.valueObs o ho).mono hmono)
      · obtain ⟨cb, hcb, rfl⟩ := mem_ack.1 ht
        exact ⟨w.op, hcb ▸ hiss, List.mem_cons_self⟩
  | @reject i w hw hfirst =>
    have hiss := (h.writes w (List.mem_of_getElem? hw)).mono hmono
    refine h.extend rfl ⟨_, hiss⟩ (fun _ => .inl) (fun _ hw => .inl (List.mem_of_mem_eraseIdx hw))
      (fun _ => .inl) (fun _ => .inl) (fun _ => .inl)
      (fun t ht => (List.mem_append.1 ht).imp_right fun ht => ?_)
    obtain ⟨cb, hcb, rfl⟩ := mem_ack.1 ht
    exact ⟨w.op, hcb ▸ hiss, List.mem_cons_self⟩
  | @serve i c a ok ha =>
    have hiss := h.asks _ (List.mem_of_getElem? ha)
    refine h.extend rfl (hiss.mono hmono) (fun _ => .inl) (fun _ => .inl)
      (fun _ hx => .inl (List.mem_of_mem_eraseIdx hx))
      (fun o ho => (List.mem_append.1 ho).imp_right fun ho => ?_)
      (fun o ho => (List.mem_append.1 ho).imp_right fun ho => ?_)
      (fun t ht => (List.mem_append.1 ht).imp_right fun ht =>
        h.answer hmono List.mem_cons_self hiss t ht)
    · obtain ⟨rfl, rfl⟩ := mem_childObserver.1 ho
      exact hiss.mono hmono
    · obtain ⟨rfl, rfl⟩ := mem_valueObserver.1 ho
      exact hiss.mono hmono
  | die =>
    exact h.extend rfl trivial (fun _ => .inl) (fun _ hw => .inl (List.mem_filter.1 hw).1)
      (fun _ hx => .inl (List.mem_filter.1 hx).1) (fun _ ho => .inl (List.mem_filter.1 ho).1)
      (fun _ ho => .inl (List.mem_filter.1 ho).1) (fun _ ht => .inl (List.mem_filter.1 ht).1)

/-- In every state that a run reaches from an empty database, everything has its origin. -/
theorem of_reaches {ok : State Loc Client Cb Blob App Action → Label Client Action → Prop}
    (hs : Initial s) (htree : s.tree = ∅)
    (hG : ∀ {t l}, Reaches (Realtime.step P) ok s t → ok t l → G.Holds t l)
    (h : Reaches (Realtime.step P) ok s s') : Origin P G s' :=
  h.invariant_of_reached (initial hs htree) fun ht ho hl hstep =>
    ho.step (transition_of_step hstep) (hG ht hl)

end Origin

/-! ## The tree and the log -/

/-- The server accepted a write of `l`. -/
def Written (log : List (Event Loc Client Cb Blob Action)) (l : Loc) : Prop :=
  ∃ c v, .resolved c (.update l v) true ∈ log

/-- The server rejected a write of `l`. -/
def Rejected (log : List (Event Loc Client Cb Blob Action)) (l : Loc) : Prop :=
  ∃ c v, .resolved c (.update l v) false ∈ log

/-- The server answered a write of `l`. -/
def Answered (log : List (Event Loc Client Cb Blob Action)) (l : Loc) : Prop :=
  ∃ c v ok, .resolved c (.update l v) ok ∈ log

theorem Written.answered {log : List (Event Loc Client Cb Blob Action)} {l : Loc}
    (h : Written log l) : Answered log l := by
  obtain ⟨c, v, hr⟩ := h
  exact ⟨c, v, true, hr⟩

/-- The event answers a write of `l` with `ok`. -/
def Event.answers [DecidableEq Loc] (l : Loc) (ok : Bool) : Event Loc Client Cb Blob Action → Bool
  | .resolved _ (.update l' _) ok' => decide (l' = l ∧ ok' = ok)
  | _ => false

theorem exists_answers [DecidableEq Loc] {log : List (Event Loc Client Cb Blob Action)} {l : Loc}
    {ok : Bool} : (∃ ev ∈ log, ev.answers l ok = true) ↔ ∃ c v, .resolved c (.update l v) ok ∈ log := by
  constructor
  · rintro ⟨ev, hev, h⟩
    unfold Event.answers at h
    split at h
    · next c l' v ok' =>
      obtain ⟨rfl, rfl⟩ := of_decide_eq_true h
      exact ⟨c, v, hev⟩
    · cases h
  · rintro ⟨c, v, hr⟩
    exact ⟨_, hr, decide_eq_true ⟨rfl, rfl⟩⟩

instance [DecidableEq Loc] (log : List (Event Loc Client Cb Blob Action)) (l : Loc) :
    Decidable (Written log l) := decidable_of_iff _ exists_answers

instance [DecidableEq Loc] (log : List (Event Loc Client Cb Blob Action)) (l : Loc) :
    Decidable (Rejected log l) := decidable_of_iff _ exists_answers

theorem Written.mono {log log' : List (Event Loc Client Cb Blob Action)}
    (hlog : ∀ ev ∈ log, ev ∈ log') {l : Loc} (h : Written log l) : Written log' l := by
  obtain ⟨c, v, hr⟩ := h
  exact ⟨c, v, hlog _ hr⟩

section Tree

variable [DecidableEq Loc] [DecidableEq Client] {P : Program Loc Client Cb Blob App Action}
  {s s' : State Loc Client Cb Blob App Action} {l : Label Client Action}
  {ok : State Loc Client Cb Blob App Action → Label Client Action → Prop}

/-- A location was written before the step, or the step accepted a write of it. The log is any part
of the log of the state. -/
theorem Written.cons_cases {l₀ : Loc} {ev : Event Loc Client Cb Blob Action}
    {log : List (Event Loc Client Cb Blob Action)} (h : Written (ev :: log) l₀)
    (hs : Transition P s l s') (hlog : s'.log = ev :: s.log) :
    Written log l₀ ∨ ∃ i w v, s.writes[i]? = some w ∧ s.FirstOfClient i w.client ∧
      w.op = .update l₀ v ∧ s' = s.applied i w := by
  obtain ⟨c, v, hr⟩ := h
  rcases List.mem_cons.1 hr with rfl | hr
  · cases hs with
    | @apply i w hw hfirst =>
      injection (List.cons.inj hlog).1 with _ hop _
      exact .inr ⟨i, w, v, hw, hfirst, hop, rfl⟩
    | press | run | reject | serve | die => exact absurd (List.cons.inj hlog).1 (by simp)
  · exact .inl ⟨c, v, hr⟩

theorem Written.cases {l₀ : Loc} (h : Written s'.log l₀) (hs : Transition P s l s') :
    Written s.log l₀ ∨ ∃ i w v, s.writes[i]? = some w ∧ s.FirstOfClient i w.client ∧
      w.op = .update l₀ v ∧ s' = s.applied i w := by
  obtain ⟨ev, hlog⟩ := hs.log_cons
  rw [hlog] at h
  exact h.cons_cases hs hlog

/-- A write of the location was answered before the step, or the step answered one. -/
theorem Answered.cases {l₀ : Loc} (h : Answered s'.log l₀) (hs : Transition P s l s') :
    Answered s.log l₀ ∨ ∃ i w v, s.writes[i]? = some w ∧ s.FirstOfClient i w.client ∧
      w.op = .update l₀ v ∧ s'.writes = s.writes.eraseIdx i := by
  obtain ⟨c, v, ok, hr⟩ := h
  cases hs with
  | @apply i w hw hfirst | @reject i w hw hfirst =>
    rcases List.mem_cons.1 hr with hr | hr
    · injection hr with _ hop _
      exact .inr ⟨i, w, v, hw, hfirst, hop.symm, rfl⟩
    · exact .inl ⟨c, v, ok, hr⟩
  | press | run | serve | die =>
    rcases List.mem_cons.1 hr with hr | hr
    · cases hr
    · exact .inl ⟨c, v, ok, hr⟩

/-- A location in the tree stays there, or the step accepted a removal at or above it. -/
theorem mem_tree_step {l₀ : Loc} (h : l₀ ∈ s.tree) (hs : Transition P s l s') :
    l₀ ∈ s'.tree ∨ ∃ i w p, s.writes[i]? = some w ∧ s.FirstOfClient i w.client ∧
      w.op = .remove p ∧ p <+: path l₀ ∧ s' = s.applied i w := by
  cases hs with
  | @apply i w hw hfirst =>
    cases hop : w.op with
    | update l v =>
      refine .inl ?_
      rw [State.applied_tree, hop]
      exact Tree.mem_update.2 (.inr h)
    | remove p =>
      by_cases hp : p <+: path l₀
      · exact .inr ⟨i, w, p, hw, hfirst, hop, hp, rfl⟩
      · refine .inl ?_
        rw [State.applied_tree, hop]
        exact Tree.mem_remove.2 ⟨h, hp⟩
  | press | run | reject | serve | die => exact .inl h

/-- What is not there stays away as long as nothing waits that writes it. -/
theorem not_mem_tree_step {l₀ : Loc} (h : l₀ ∉ s.tree)
    (hnew : ∀ w ∈ s.writes, ∀ v, w.op ≠ .update l₀ v) (hs : Transition P s l s') :
    l₀ ∉ s'.tree := by
  intro hmem
  cases hs with
  | @apply i w hw hfirst =>
    cases hop : w.op with
    | update l' v =>
      rw [State.applied_tree, hop] at hmem
      rcases Tree.mem_update.1 hmem with rfl | hmem
      · exact hnew w (List.mem_of_getElem? hw) v hop
      · exact h hmem
    | remove p =>
      rw [State.applied_tree, hop] at hmem
      exact h (Tree.mem_remove.1 hmem).1
  | press | run | reject | serve | die => exact h hmem

/-- A write that waits was waiting before the step, or a press or a callback issued it. -/
theorem mem_writes_step {w : Write Loc Client Cb} (h : w ∈ s'.writes) (hs : Transition P s l s') :
    w ∈ s.writes ∨
      (∃ a e app cmds, e.key ∉ s.issued ∧ P.act a e s.app = some (w.client, app, cmds) ∧
        .write w.op w.completion ∈ cmds ∧ s' = s.pressed a e w.client app cmds) ∨
      ∃ i t e app cmds, t ∈ s.tasks ∧ t.client = w.client ∧
        P.handle t.client e t.cb t.input s.app = (app, cmds) ∧
        .write w.op w.completion ∈ cmds ∧ s' = s.ran i t e app cmds := by
  cases hs with
  | @press a e c app cmds hkey hact =>
    refine (List.mem_append.1 h).imp_right fun h => ?_
    obtain ⟨rfl, hcmd⟩ := mem_newWrites.1 h
    exact .inl ⟨a, e, app, cmds, hkey, hact, hcmd, rfl⟩
  | @run i e t app cmds hkey ht hrun =>
    refine (List.mem_append.1 h).imp_right fun h => ?_
    obtain ⟨hc, hcmd⟩ := mem_newWrites.1 h
    exact .inr ⟨i, t, e, app, cmds, List.mem_of_getElem? ht, hc.symm, hrun, hcmd, rfl⟩
  | apply | reject => exact .inl (List.mem_of_mem_eraseIdx h)
  | serve => exact .inl h
  | die => exact .inl (List.mem_filter.1 h).1

/-- What was written is there, or a removal at or above it was accepted. -/
def PresentOrRemoved (s : State Loc Client Cb Blob App Action) : Prop :=
  ∀ c l v, .resolved c (.update l v) true ∈ s.log →
    l ∈ s.tree ∨ ∃ c' p, .resolved c' (.remove p) true ∈ s.log ∧ p <+: path l

theorem PresentOrRemoved.step (h : PresentOrRemoved s) (hs : Transition P s l s') :
    PresentOrRemoved s' := by
  have hmono := hs.log_mono
  -- every step but an accepted write leaves the tree alone and logs no accepted write
  have other : s'.tree = s.tree → (∃ ev, s'.log = ev :: s.log ∧ ∀ c op, ev ≠ .resolved c op true) →
      PresentOrRemoved s' := by
    rintro htree ⟨ev, hlog, hev⟩ c l v hr
    rw [hlog] at hr
    rcases List.mem_cons.1 hr with rfl | hr
    · exact absurd rfl (hev _ _)
    · rw [htree]
      exact (h c l v hr).imp_right fun ⟨c', p, hr, hp⟩ => ⟨c', p, hmono _ hr, hp⟩
  cases hs with
  | @apply i w hw hfirst =>
    obtain ⟨c, op, cb⟩ := w
    intro c₀ l₀ v₀ hr
    have old : l₀ ∈ s.tree ∨ (∃ v, op = .update l₀ v) ∨
        ∃ c' p, .resolved c' (.remove p) true ∈ (s.applied i ⟨c, op, cb⟩).log ∧
          p <+: path l₀ := by
      rcases List.mem_cons.1 hr with hr | hr
      · cases hr
        exact .inr (.inl ⟨_, rfl⟩)
      · exact (h c₀ l₀ v₀ hr).imp_right fun ⟨c', p, hr, hp⟩ => .inr ⟨c', p, hmono _ hr, hp⟩
    cases op with
    | update l' v' =>
      rcases old with hl | ⟨v, hv⟩ | hrem
      · exact .inl (Tree.mem_update.2 (.inr hl))
      · cases hv
        exact .inl (Tree.mem_update.2 (.inl rfl))
      · exact .inr hrem
    | remove p =>
      rcases old with hl | ⟨v, hv⟩ | hrem
      · by_cases hp : p <+: path l₀
        · exact .inr ⟨c, p, List.mem_cons_self, hp⟩
        · exact .inl (Tree.mem_remove.2 ⟨hl, hp⟩)
      · cases hv
      · exact .inr hrem
  | press => exact other rfl ⟨_, rfl, by simp⟩
  | run => exact other rfl ⟨_, rfl, by simp⟩
  | reject => exact other rfl ⟨_, rfl, by simp⟩
  | serve => exact other rfl ⟨_, rfl, by simp⟩
  | die => exact other rfl ⟨_, rfl, by simp⟩

theorem PresentOrRemoved.of_reaches (hs : Initial s) (h : Reaches (Realtime.step P) ok s s') :
    PresentOrRemoved s' :=
  h.invariant (fun _ _ _ hr => by simp [hs.log] at hr)
    fun ho _ hstep => ho.step (transition_of_step hstep)

/-- The value at a location is the value of a write. -/
def ValuesWritten (watched : Loc → Prop) (s : State Loc Client Cb Blob App Action) : Prop :=
  ∀ l v, watched l → s.tree.lookup l = some v → ∃ c, .resolved c (.update l v) true ∈ s.log

/-- No write that waits changes what an earlier one left at its location but to its own value. -/
def Replacing (watched : Loc → Prop) (s : State Loc Client Cb Blob App Action) : Prop :=
  ∀ w ∈ s.writes, ∀ l new, watched l → w.op = .update l new →
    ∀ c old, .resolved c (.update l old) true ∈ s.log → Schema.merge l new old = new

theorem ValuesWritten.step {watched : Loc → Prop} (h : ValuesWritten watched s)
    (hrep : Replacing watched s) (hs : Transition P s l s') : ValuesWritten watched s' := by
  have hmono := hs.log_mono
  have old : ∀ l v, watched l → s.tree.lookup l = some v →
      ∃ c, .resolved c (.update l v) true ∈ s'.log := fun l v hl hv =>
    (h l v hl hv).imp fun _ hr => hmono _ hr
  cases hs with
  | @apply i w hw hfirst =>
    have hmem := List.mem_of_getElem? hw
    obtain ⟨c, op, cb⟩ := w
    intro l₀ v₀ hl hv
    by_cases ht : op.touches l₀
    · cases op with
      | update l' v' =>
        obtain rfl : l' = l₀ := of_decide_eq_true ht
        have hm : s.tree.merged l' v' = v' := by
          unfold Tree.merged
          split
          · rfl
          · next w hw =>
            obtain ⟨c', hr⟩ := h _ _ hl hw
            exact hrep _ hmem _ _ hl rfl _ _ hr
        have hv : (s.tree.update l' v').lookup l' = some v₀ := hv
        rw [Tree.lookup_update_self, hm] at hv
        cases hv
        exact ⟨c, List.mem_cons_self⟩
      | remove p =>
        have hp : p.isPrefixOf (path l₀) = true := ht
        have hv : (s.tree.remove p).lookup l₀ = some v₀ := hv
        simp [Tree.lookup_remove, hp] at hv
    · have hv : (op.apply s.tree).lookup l₀ = some v₀ := hv
      rw [Op.lookup_apply_of_not_touches (by simpa using ht)] at hv
      exact old _ _ hl hv
  | press => exact old
  | run => exact old
  | reject => exact old
  | serve => exact old
  | die => exact old

theorem ValuesWritten.of_reaches {watched : Loc → Prop} (htree : s.tree = ∅)
    (hrep : ∀ {t}, Reaches (Realtime.step P) ok s t → Replacing watched t)
    (h : Reaches (Realtime.step P) ok s s') : ValuesWritten watched s' :=
  h.invariant_of_reached (fun _ _ _ hv => by simp [htree] at hv)
    fun ht ho _ hstep => ho.step (hrep ht) (transition_of_step hstep)

/-- A client reads the value `v` at `l` when it is there and no write of its own that waits
changes it. -/
theorem lookup_view {l : Loc} {v : Val l} {c : Client} (hv : s.tree.lookup l = some v)
    (hm : Schema.merge l v v = v)
    (hw : ∀ w ∈ s.writes, w.client = c → w.op.touches l = true → w.op = .update l v) :
    (s.view c).lookup l = some v := by
  unfold State.view
  have hw' : ∀ w ∈ s.writes.filter (fun w => decide (w.client = c)), w.op.touches l = true →
      w.op = .update l v := fun w hmem =>
    hw w (List.mem_filter.1 hmem).1 (of_decide_eq_true (List.mem_filter.1 hmem).2)
  generalize s.writes.filter (fun w => decide (w.client = c)) = ws at hw'
  generalize s.tree = t at hv
  induction ws generalizing t with
  | nil => exact hv
  | cons w ws ih =>
    refine ih (fun w' hmem => hw' w' (List.mem_cons_of_mem _ hmem)) (w.op.apply t) ?_
    by_cases ht : w.op.touches l
    · rw [hw' w List.mem_cons_self ht]
      have hmerged : t.merged l v = v := by
        unfold Tree.merged
        rw [hv]
        exact hm
      exact (Tree.lookup_update_self t l v).trans (congrArg some hmerged)
    · rw [Op.lookup_apply_of_not_touches (by simpa using ht)]
      exact hv

/-- Where writing replaces, a value after a write was there before or is the one written. -/
theorem lookup_apply_cases {op : Op Loc} {t : Tree Loc} {l : Loc} {v : Val l}
    (hm : ∀ new old, Schema.merge l new old = new) (h : (op.apply t).lookup l = some v) :
    t.lookup l = some v ∨ op = .update l v := by
  by_cases ht : op.touches l
  · cases op with
    | update l' v' =>
      obtain rfl : l' = l := of_decide_eq_true ht
      have hmerged : t.merged l' v' = v' := by
        unfold Tree.merged
        split
        · rfl
        · exact hm _ _
      have h : (t.update l' v').lookup l' = some v := h
      rw [Tree.lookup_update_self, hmerged] at h
      cases h
      exact .inr rfl
    | remove p =>
      have hp : p.isPrefixOf (path l) = true := ht
      have h : (t.remove p).lookup l = some v := h
      simp [Tree.lookup_remove, hp] at h
  · rw [Op.lookup_apply_of_not_touches (by simpa using ht)] at h
    exact .inl h

/-- What a client reads is in the tree or is the value of a write of its own that waits. -/
theorem lookup_view_cases {l : Loc} {v : Val l} {c : Client}
    (hm : ∀ new old, Schema.merge l new old = new) (h : (s.view c).lookup l = some v) :
    s.tree.lookup l = some v ∨ ∃ w ∈ s.writes, w.client = c ∧ w.op = .update l v := by
  unfold State.view at h
  have hw : ∀ w ∈ s.writes.filter (fun w => decide (w.client = c)), w ∈ s.writes ∧ w.client = c :=
    fun w hmem => ⟨(List.mem_filter.1 hmem).1, of_decide_eq_true (List.mem_filter.1 hmem).2⟩
  generalize s.writes.filter (fun w => decide (w.client = c)) = ws at h hw
  generalize s.tree = t at h ⊢
  induction ws generalizing t with
  | nil => exact .inl h
  | cons w ws ih =>
    rcases ih (fun w' hmem => hw w' (List.mem_cons_of_mem _ hmem)) _ h with h | h
    · rcases lookup_apply_cases hm h with h | hop
      · exact .inl h
      · obtain ⟨hmem, hc⟩ := hw w List.mem_cons_self
        exact .inr ⟨w, hmem, hc, hop⟩
    · exact .inr h

end Tree

/-! ## Answers to writes -/

/-- A write that was rejected is one that runs of this class may reject. -/
theorem rejected_of_reaches [DecidableEq Loc] [DecidableEq Client]
    {P : Program Loc Client Cb Blob App Action} {s s' : State Loc Client Cb Blob App Action}
    {ok : State Loc Client Cb Blob App Action → Label Client Action → Prop} {Q : Op Loc → Prop}
    (hs : Initial s)
    (hok : ∀ s i w, ok s (.commit i false) → s.writes[i]? = some w → Q w.op)
    (h : Reaches (Realtime.step P) ok s s') {c : Client} {op : Op Loc}
    (hr : .resolved c op false ∈ s'.log) : Q op := by
  refine h.invariant (I := fun s => ∀ c op, .resolved c op false ∈ s.log → Q op)
    (by simp [hs.log]) (fun {t l u} ih hl hstep c op hr => ?_) c op hr
  cases transition_of_step hstep with
  | press | run | serve | die | apply =>
    rcases List.mem_cons.1 hr with hr | hr
    · cases hr
    · exact ih c op hr
  | reject hw =>
    rcases List.mem_cons.1 hr with hr | hr
    · cases hr
      exact hok _ _ _ hl hw
    · exact ih c op hr

/-- What holds of every write that waits holds of every write the server has answered, at the
moment it did. -/
theorem of_resolved_suffix [DecidableEq Loc] [DecidableEq Client]
    {P : Program Loc Client Cb Blob App Action} {s s' : State Loc Client Cb Blob App Action}
    {ok : State Loc Client Cb Blob App Action → Label Client Action → Prop}
    {Q : List (Event Loc Client Cb Blob Action) → Client → Op Loc → Prop} (hs : Initial s)
    (hQ : ∀ t, Reaches (Realtime.step P) ok s t → ∀ w ∈ t.writes, Q t.log w.client w.op)
    (h : Reaches (Realtime.step P) ok s s') {c : Client} {op : Op Loc} {b : Bool}
    {before : List (Event Loc Client Cb Blob Action)}
    (hr : .resolved c op b :: before <:+ s'.log) : Q before c op := by
  induction h with
  | refl => simp [hs.log] at hr
  | tail ht _ hstep ih =>
    cases transition_of_step hstep with
    | press | run | serve | die =>
      rcases List.suffix_cons_iff.1 hr with he | hr
      · cases he
      · exact ih hr
    | apply hw | reject hw =>
      rcases List.suffix_cons_iff.1 hr with he | hr
      · cases he
        exact hQ _ ht _ (List.mem_of_getElem? hw)
      · exact ih hr

/-! ## Keys -/

/-- The key drawn in a press or a callback. -/
def Event.key? : Event Loc Client Cb Blob Action → Option String
  | .pressed _ e | .ran _ e => some e.key
  | _ => none

/-- No key is drawn twice. -/
structure KeysFresh (s : State Loc Client Cb Blob App Action) : Prop where
  issued : ∀ ev ∈ s.log, ∀ k ∈ ev.key?, k ∈ s.issued
  nodup : (s.log.filterMap Event.key?).Nodup

namespace KeysFresh

variable {s s' : State Loc Client Cb Blob App Action}

/-- A step that draws the fresh key `k` keeps the keys fresh. -/
theorem draw (h : KeysFresh s) {ev : Event Loc Client Cb Blob Action} {k : String}
    (hlog : s'.log = ev :: s.log) (hissued : s'.issued = k :: s.issued) (hev : ev.key? = some k)
    (hk : k ∉ s.issued) : KeysFresh s' := by
  refine ⟨fun ev' hev' k' hk' => ?_, ?_⟩
  · rw [hissued]
    rw [hlog] at hev'
    rcases List.mem_cons.1 hev' with rfl | hev'
    · rw [hev] at hk'
      cases hk'
      exact List.mem_cons_self
    · exact List.mem_cons_of_mem _ (h.issued ev' hev' k' hk')
  · rw [hlog, List.filterMap_cons_some hev, List.nodup_cons]
    refine ⟨fun hmem => ?_, h.nodup⟩
    obtain ⟨ev', hev', hk'⟩ := List.mem_filterMap.1 hmem
    exact hk (h.issued ev' hev' k hk')

/-- A step that draws no key keeps the keys fresh. -/
theorem keep (h : KeysFresh s) {ev : Event Loc Client Cb Blob Action}
    (hlog : s'.log = ev :: s.log) (hissued : s'.issued = s.issued) (hev : ev.key? = none) :
    KeysFresh s' := by
  refine ⟨fun ev' hev' k' hk' => ?_, ?_⟩
  · rw [hissued]
    rw [hlog] at hev'
    rcases List.mem_cons.1 hev' with rfl | hev'
    · simp [hev] at hk'
    · exact h.issued ev' hev' k' hk'
  · rw [hlog, List.filterMap_cons_none hev]
    exact h.nodup

/-- Two events that drew the same key are the same event. -/
theorem event_eq (h : KeysFresh s) {ev ev' : Event Loc Client Cb Blob Action} {k : String}
    (hev : ev ∈ s.log) (hev' : ev' ∈ s.log) (hk : ev.key? = some k) (hk' : ev'.key? = some k) :
    ev = ev' := by
  by_contra hne
  have hpair := List.pairwise_filterMap.1 h.nodup
  have hsymm : Std.Symm fun a a' : Event Loc Client Cb Blob Action =>
      ∀ b, a.key? = some b → ∀ b', a'.key? = some b' → b ≠ b' :=
    ⟨fun _ _ h b hb b' hb' e => h b' hb' b hb e.symm⟩
  exact hpair.forall hev hev' hne k hk k hk' rfl

variable [DecidableEq Loc] [DecidableEq Client] {P : Program Loc Client Cb Blob App Action}
  {l : Label Client Action}
  {ok : State Loc Client Cb Blob App Action → Label Client Action → Prop}

theorem step (h : KeysFresh s) (hs : Transition P s l s') : KeysFresh s' := by
  cases hs with
  | press hkey => exact h.draw rfl rfl rfl hkey
  | run hkey => exact h.draw rfl rfl rfl hkey
  | apply => exact h.keep rfl rfl rfl
  | reject => exact h.keep rfl rfl rfl
  | serve => exact h.keep rfl rfl rfl
  | die => exact h.keep rfl rfl rfl

theorem of_reaches (hs : Initial s) (h : Reaches (Realtime.step P) ok s s') : KeysFresh s' :=
  h.invariant ⟨by simp [hs.log], by simp [hs.log]⟩
    fun ho _ hstep => ho.step (transition_of_step hstep)

end KeysFresh

end Realtime
