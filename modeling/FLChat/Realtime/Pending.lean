import FLChat.Realtime.History

/-!
# What a client waits for

The callbacks that may still run on a client: the completions of its writes, those of its requests
and observers, and the ones that are due. A press and a callback add what their commands name
(`mem_pending_pressed`, `mem_pending_of_pressed`, `mem_pending_ran`), the server adds nothing (`mem_pending_applied`,
`mem_pending_rejected`, `mem_pending_served`), and a process that ends waits for nothing
(`mem_pending_died`).
-/

namespace Realtime

variable {Loc Client Cb Blob App Action : Type} [Schema Loc]

/-- The callback of a request. -/
def Ask.cb : Ask Loc Cb Blob → Cb
  | .childAdded _ cb | .value _ cb | .single _ cb | .putData _ _ cb | .downloadURL _ cb => cb

/-- The callback of a command, if it has one. -/
def Cmd.completion : Cmd Loc Cb Blob → Option Cb
  | .write _ completion => completion
  | .ask a => some a.cb

variable [DecidableEq Client]

/-- The callbacks that may still run on `c`. -/
def State.pending (s : State Loc Client Cb Blob App Action) (c : Client) : List Cb :=
  (s.writes.filter fun w => decide (w.client = c)).filterMap Write.completion ++
    (s.asks.filter fun a => decide (a.1 = c)).map (fun a => a.2.cb) ++
    (s.tasks.filter fun t => decide (t.client = c)).map Task.cb ++
    (s.childObs.filter fun o => decide (o.client = c)).map ChildObserver.cb ++
    (s.valueObs.filter fun o => decide (o.client = c)).map ValueObserver.cb

variable {P : Program Loc Client Cb Blob App Action} {s s' : State Loc Client Cb Blob App Action}
  {l : Label Client Action} {c c' : Client} {cb : Cb}

theorem mem_pending : cb ∈ s.pending c ↔
    (∃ w ∈ s.writes, w.client = c ∧ w.completion = some cb) ∨
      (∃ a, (c, a) ∈ s.asks ∧ a.cb = cb) ∨ (∃ i, ⟨c, cb, i⟩ ∈ s.tasks) ∨
        (∃ p, ⟨c, p, cb⟩ ∈ s.childObs) ∨ ∃ l, ⟨c, l, cb⟩ ∈ s.valueObs := by
  simp only [State.pending, List.mem_append, List.mem_filterMap, List.mem_map, List.mem_filter,
    decide_eq_true_eq, or_assoc]
  refine or_congr ?_ (or_congr ?_ (or_congr ?_ (or_congr ?_ ?_)))
  · exact ⟨fun ⟨w, ⟨hw, hc⟩, hcb⟩ => ⟨w, hw, hc, hcb⟩, fun ⟨w, hw, hc, hcb⟩ => ⟨w, ⟨hw, hc⟩, hcb⟩⟩
  · constructor
    · rintro ⟨⟨_, a⟩, ⟨ha, rfl⟩, hcb⟩
      exact ⟨a, ha, hcb⟩
    · rintro ⟨a, ha, hcb⟩
      exact ⟨(c, a), ⟨ha, rfl⟩, hcb⟩
  · constructor
    · rintro ⟨⟨_, _, i⟩, ⟨ht, rfl⟩, rfl⟩
      exact ⟨i, ht⟩
    · rintro ⟨i, ht⟩
      exact ⟨⟨c, cb, i⟩, ⟨ht, rfl⟩, rfl⟩
  · constructor
    · rintro ⟨⟨_, p, _⟩, ⟨ho, rfl⟩, rfl⟩
      exact ⟨p, ho⟩
    · rintro ⟨p, ho⟩
      exact ⟨⟨c, p, cb⟩, ⟨ho, rfl⟩, rfl⟩
  · constructor
    · rintro ⟨⟨_, l, _⟩, ⟨ho, rfl⟩, rfl⟩
      exact ⟨l, ho⟩
    · rintro ⟨l, ho⟩
      exact ⟨⟨c, l, cb⟩, ⟨ho, rfl⟩, rfl⟩

theorem mem_pending_of_task {t : Task Loc Client Cb} (h : t ∈ s.tasks) : t.cb ∈ s.pending t.client :=
  mem_pending.2 (.inr (.inr (.inl ⟨t.input, h⟩)))

/-- Issuing commands adds their callbacks. -/
theorem mem_pending_issue {cmds : List (Cmd Loc Cb Blob)} (h : cb ∈ s'.pending c)
    (hwrites : s'.writes = s.writes ++ newWrites c' cmds)
    (hasks : s'.asks = s.asks ++ newAsks c' cmds) (htasks : ∀ t ∈ s'.tasks, t ∈ s.tasks)
    (hchild : s'.childObs = s.childObs) (hvalue : s'.valueObs = s.valueObs) :
    cb ∈ s.pending c ∨ c = c' ∧ some cb ∈ cmds.map Cmd.completion := by
  rcases mem_pending.1 h with ⟨w, hw, hc, hcb⟩ | ⟨a, ha, hcb⟩ | ⟨i, ht⟩ | ho
  · rw [hwrites] at hw
    rcases List.mem_append.1 hw with hw | hw
    · exact .inl (mem_pending.2 (.inl ⟨w, hw, hc, hcb⟩))
    · obtain ⟨hc', hcmd⟩ := mem_newWrites.1 hw
      exact .inr ⟨hc.symm.trans hc', List.mem_map.2 ⟨_, hcmd, hcb⟩⟩
  · rw [hasks] at ha
    rcases List.mem_append.1 ha with ha | ha
    · exact .inl (mem_pending.2 (.inr (.inl ⟨a, ha, hcb⟩)))
    · obtain ⟨hc', hcmd⟩ := mem_newAsks.1 ha
      exact .inr ⟨hc', List.mem_map.2 ⟨_, hcmd, congrArg some hcb⟩⟩
  · exact .inl (mem_pending.2 (.inr (.inr (.inl ⟨i, htasks _ ht⟩))))
  · rw [hchild, hvalue] at ho
    exact .inl (mem_pending.2 (.inr (.inr (.inr ho))))

theorem mem_pending_pressed {a : Action} {e : Env} {app : App} {cmds : List (Cmd Loc Cb Blob)}
    (h : cb ∈ (s.pressed a e c' app cmds).pending c) :
    cb ∈ s.pending c ∨ c = c' ∧ some cb ∈ cmds.map Cmd.completion :=
  mem_pending_issue h rfl rfl (fun _ => id) rfl rfl

/-- What was under way stays so, and the commands are under way. -/
theorem mem_pending_of_pressed {a : Action} {e : Env} {app : App} {cmds : List (Cmd Loc Cb Blob)}
    (h : cb ∈ s.pending c ∨ c = c' ∧ some cb ∈ cmds.map Cmd.completion) :
    cb ∈ (s.pressed a e c' app cmds).pending c := by
  rw [mem_pending]
  rcases h with h | ⟨rfl, hcmd⟩
  · exact (mem_pending.1 h).imp (fun ⟨w, hw, hcb⟩ => ⟨w, List.mem_append_left _ hw, hcb⟩)
      (.imp (fun ⟨a', ha, hcb⟩ => ⟨a', List.mem_append_left _ ha, hcb⟩) id)
  · obtain ⟨cmd, hcmd, hcb⟩ := List.mem_map.1 hcmd
    cases cmd with
    | write op completion =>
      exact .inl ⟨⟨c, op, completion⟩,
        List.mem_append_right _ (mem_newWrites.2 ⟨rfl, hcmd⟩), rfl, hcb⟩
    | ask a' =>
      exact .inr (.inl ⟨a', List.mem_append_right _ (mem_newAsks.2 ⟨rfl, hcmd⟩),
        Option.some.inj hcb⟩)

theorem mem_pending_ran {i : ℕ} {t : Task Loc Client Cb} {e : Env} {app : App}
    {cmds : List (Cmd Loc Cb Blob)} (h : cb ∈ (s.ran i t e app cmds).pending c) :
    cb ∈ s.pending c ∨ c = t.client ∧ some cb ∈ cmds.map Cmd.completion :=
  mem_pending_issue h rfl rfl (fun _ => List.mem_of_mem_eraseIdx) rfl rfl

/-- The server only calls what was waiting. -/
theorem mem_pending_applied [DecidableEq Loc] {i : ℕ} {w : Write Loc Client Cb} (hw : w ∈ s.writes)
    (h : cb ∈ (s.applied i w).pending c) : cb ∈ s.pending c := by
  rcases mem_pending.1 h with ⟨w', hw', hcb⟩ | ha | ⟨i', ht⟩ | ho
  · exact mem_pending.2 (.inl ⟨w', List.mem_of_mem_eraseIdx hw', hcb⟩)
  · exact mem_pending.2 (.inr (.inl ha))
  · rcases List.mem_append.1 ht with ht | ht
    · exact mem_pending.2 (.inr (.inr (.inl ⟨i', ht⟩)))
    · rcases List.mem_append.1 ht with ht | ht
      · rcases List.mem_append.1 ht with ht | ht
        · obtain ⟨o, ho, l, v, k, -, -, -, he⟩ := mem_childEvents.1 ht
          cases he
          exact mem_pending.2 (.inr (.inr (.inr (.inl ⟨o.path, ho⟩))))
        · obtain ⟨o, ho, -, he⟩ := mem_valueEvents.1 ht
          cases he
          exact mem_pending.2 (.inr (.inr (.inr (.inr ⟨o.loc, ho⟩))))
      · obtain ⟨cb', hcb, he⟩ := mem_ack.1 ht
        cases he
        exact mem_pending.2 (.inl ⟨w, hw, rfl, hcb⟩)
  · exact mem_pending.2 (.inr (.inr (.inr ho)))

theorem mem_pending_rejected {i : ℕ} {w : Write Loc Client Cb} (hw : w ∈ s.writes)
    (h : cb ∈ (s.rejected i w).pending c) : cb ∈ s.pending c := by
  rcases mem_pending.1 h with ⟨w', hw', hcb⟩ | ha | ⟨i', ht⟩ | ho
  · exact mem_pending.2 (.inl ⟨w', List.mem_of_mem_eraseIdx hw', hcb⟩)
  · exact mem_pending.2 (.inr (.inl ha))
  · rcases List.mem_append.1 ht with ht | ht
    · exact mem_pending.2 (.inr (.inr (.inl ⟨i', ht⟩)))
    · obtain ⟨cb', hcb, he⟩ := mem_ack.1 ht
      cases he
      exact mem_pending.2 (.inl ⟨w, hw, rfl, hcb⟩)
  · exact mem_pending.2 (.inr (.inr (.inr ho)))

/-- The answers to a request run its callback. -/
theorem mem_answer [DecidableEq Loc] {a : Ask Loc Cb Blob} {ok : Bool} {t : Task Loc Client Cb}
    (h : t ∈ s.answer c a ok) : t.client = c ∧ t.cb = a.cb := by
  cases a with
  | childAdded p cb =>
    obtain ⟨k, -, rfl⟩ := List.mem_map.1 h
    exact ⟨rfl, rfl⟩
  | value | single | putData | downloadURL =>
    cases List.mem_singleton.1 h
    exact ⟨rfl, rfl⟩

theorem mem_pending_served [DecidableEq Loc] {i : ℕ} {a : Ask Loc Cb Blob} {ok : Bool}
    (ha : (c', a) ∈ s.asks) (h : cb ∈ (s.served i c' a ok).pending c) : cb ∈ s.pending c := by
  have hask : c = c' → a.cb = cb → cb ∈ s.pending c := by
    rintro rfl hcb
    exact mem_pending.2 (.inr (.inl ⟨a, ha, hcb⟩))
  rcases mem_pending.1 h with hw | ⟨a', ha', hcb⟩ | ⟨i', ht⟩ | ⟨p, ho⟩ | ⟨l, ho⟩
  · exact mem_pending.2 (.inl hw)
  · exact mem_pending.2 (.inr (.inl ⟨a', List.mem_of_mem_eraseIdx ha', hcb⟩))
  · rcases List.mem_append.1 ht with ht | ht
    · exact mem_pending.2 (.inr (.inr (.inl ⟨i', ht⟩)))
    · obtain ⟨hc, hcb⟩ := mem_answer ht
      exact hask hc hcb.symm
  · rcases List.mem_append.1 ho with ho | ho
    · exact mem_pending.2 (.inr (.inr (.inr (.inl ⟨p, ho⟩))))
    · obtain ⟨hc, rfl⟩ := mem_childObserver.1 ho
      exact hask hc rfl
  · rcases List.mem_append.1 ho with ho | ho
    · exact mem_pending.2 (.inr (.inr (.inr (.inr ⟨l, ho⟩))))
    · obtain ⟨hc, rfl⟩ := mem_valueObserver.1 ho
      exact hask hc rfl

/-- A process that ends waits for nothing, and the others wait for what they did. -/
theorem mem_pending_died {app : App} (h : cb ∈ (s.died c' app).pending c) :
    c ≠ c' ∧ cb ∈ s.pending c := by
  rcases mem_pending.1 h with ⟨w, hw, rfl, hcb⟩ | ⟨a, ha, hcb⟩ | ⟨i, ht⟩ | ⟨p, ho⟩ | ⟨l, ho⟩
  · obtain ⟨hw, hc⟩ := List.mem_filter.1 hw
    exact ⟨of_decide_eq_true hc, mem_pending.2 (.inl ⟨w, hw, rfl, hcb⟩)⟩
  · obtain ⟨ha, hc⟩ := List.mem_filter.1 ha
    exact ⟨of_decide_eq_true hc, mem_pending.2 (.inr (.inl ⟨a, ha, hcb⟩))⟩
  · obtain ⟨ht, hc⟩ := List.mem_filter.1 ht
    exact ⟨of_decide_eq_true hc, mem_pending.2 (.inr (.inr (.inl ⟨i, ht⟩)))⟩
  · obtain ⟨ho, hc⟩ := List.mem_filter.1 ho
    exact ⟨of_decide_eq_true hc, mem_pending.2 (.inr (.inr (.inr (.inl ⟨p, ho⟩))))⟩
  · obtain ⟨ho, hc⟩ := List.mem_filter.1 ho
    exact ⟨of_decide_eq_true hc, mem_pending.2 (.inr (.inr (.inr (.inr ⟨l, ho⟩))))⟩

/-- A callback that may still run could run before the step, or a press or a callback named it. -/
theorem mem_pending_step [DecidableEq Loc] (h : cb ∈ s'.pending c) (hs : Transition P s l s') :
    cb ∈ s.pending c ∨
      (∃ a e app cmds, s'.log = .pressed a e :: s.log ∧ P.act a e s.app = some (c, app, cmds) ∧
        ∃ cmd ∈ cmds, cmd.completion = some cb) ∨
      ∃ t e app cmds, t ∈ s.tasks ∧ t.client = c ∧
        P.handle t.client e t.cb t.input s.app = (app, cmds) ∧
        ∃ cmd ∈ cmds, cmd.completion = some cb := by
  cases hs with
  | @press a e _ app cmds _ hact =>
    rcases mem_pending_pressed h with h | ⟨rfl, hcmd⟩
    · exact .inl h
    · exact .inr (.inl ⟨a, e, app, cmds, rfl, hact, List.mem_map.1 hcmd⟩)
  | @run i e t app cmds _ ht hrun =>
    rcases mem_pending_ran h with h | ⟨rfl, hcmd⟩
    · exact .inl h
    · exact .inr (.inr ⟨t, e, app, cmds, List.mem_of_getElem? ht, rfl, hrun, List.mem_map.1 hcmd⟩)
  | apply hw => exact .inl (mem_pending_applied (List.mem_of_getElem? hw) h)
  | reject hw => exact .inl (mem_pending_rejected (List.mem_of_getElem? hw) h)
  | serve ha => exact .inl (mem_pending_served (List.mem_of_getElem? ha) h)
  | die => exact .inl (mem_pending_died h).2

section Carried

variable [DecidableEq Loc] {Q : List (Event Loc Client Cb Blob Action) → Cb → Prop}
  (hmono : ∀ ev log cb, Q log cb → Q (ev :: log) cb)
  (hpress : ∀ a e app c app' cmds log, P.act a e app = some (c, app', cmds) →
    ∀ cb, some cb ∈ cmds.map Cmd.completion → Q (.pressed a e :: log) cb)
  (hrun : ∀ c e cb input app log, Q log cb →
    ∀ cb', some cb' ∈ (P.handle c e cb input app).2.map Cmd.completion → Q log cb')
include hmono hpress hrun

/-- What presses bring about for the callbacks that they name, and callbacks pass on to those that
they name, holds of every callback that may still run. -/
theorem pending_step (h : ∀ c, ∀ cb ∈ s.pending c, Q s.log cb) (hs : Transition P s l s') :
    ∀ c, ∀ cb ∈ s'.pending c, Q s'.log cb := by
  intro c cb hcb
  rcases mem_pending_step hcb hs with hcb | ⟨a, e, app, cmds, hlog, hact, hcmd⟩ |
    ⟨t, e, app, cmds, ht, -, hran, hcmd⟩
  · obtain ⟨ev, hlog⟩ := hs.log_cons
    rw [hlog]
    exact hmono _ _ _ (h c cb hcb)
  · rw [hlog]
    exact hpress _ _ _ _ _ _ _ hact cb (List.mem_map.2 hcmd)
  · obtain ⟨ev, hlog⟩ := hs.log_cons
    rw [hlog]
    refine hmono _ _ _ (hrun t.client e t.cb t.input s.app _ (h _ _ (mem_pending_of_task ht)) cb ?_)
    rw [hran]
    exact List.mem_map.2 hcmd

end Carried

end Realtime
