import FLChat.Realtime.History

/-!
# What becomes of everything issued

The other direction of `History`, for runs in which no client dies: what a press or a callback
issued is still under way or has been answered (`Progress`), the answer's callback is due or has
run (`Due`), and a live observer has been told about every child there is (`Covered`). When nothing
is in flight, everything issued has therefore run to its end.
-/

namespace Realtime

variable {Loc Client Cb Blob App Action : Type} [Schema Loc]

/-- No client dies in the runs of this class. -/
def NoDeath (ok : State Loc Client Cb Blob App Action → Label Client Action → Prop) : Prop :=
  ∀ s c, ¬ ok s (.die c)

/-- The task waits to run, or has run. -/
def Due (s : State Loc Client Cb Blob App Action) (t : Task Loc Client Cb) : Prop :=
  t ∈ s.tasks ∨ ∃ e, .ran t e ∈ s.log

/-- What has become of a command that client `c` issued. -/
def Progress (s : State Loc Client Cb Blob App Action) (c : Client) : Cmd Loc Cb Blob → Prop
  | .write op cb => ⟨c, op, cb⟩ ∈ s.writes ∨
      ∃ ok, .resolved c op ok ∈ s.log ∧ ∀ cb' ∈ cb, Due s ⟨c, cb', .acked ok⟩
  | .ask (.childAdded p cb) => (c, .childAdded p cb) ∈ s.asks ∨ ⟨c, p, cb⟩ ∈ s.childObs
  | .ask (.value l cb) => (c, .value l cb) ∈ s.asks ∨
      (⟨c, l, cb⟩ ∈ s.valueObs ∧ ∃ v, Due s ⟨c, cb, .value l v⟩)
  | .ask (.single l cb) => (c, .single l cb) ∈ s.asks ∨ ∃ v, Due s ⟨c, cb, .value l v⟩
  | .ask (.putData p d cb) => (c, .putData p d cb) ∈ s.asks ∨ ∃ ok, Due s ⟨c, cb, .stored ok⟩
  | .ask (.downloadURL p cb) => (c, .downloadURL p cb) ∈ s.asks ∨ ∃ u, Due s ⟨c, cb, .url u⟩

/-- Every event of the log that issues commands has seen to them. -/
structure Progressed (P : Program Loc Client Cb Blob App Action)
    (G : Guard Loc Client Cb Blob App Action)
    (s : State Loc Client Cb Blob App Action) : Prop where
  pressed : ∀ a e, .pressed a e ∈ s.log → ∃ app c app' cmds, G (.pressed a e) app ∧
    P.act a e app = some (c, app', cmds) ∧ ∀ cmd ∈ cmds, Progress s c cmd
  ran : ∀ t e, .ran t e ∈ s.log → ∃ app, G (.ran t e) app ∧
    ∀ cmd ∈ (P.handle t.client e t.cb t.input app).2, Progress s t.client cmd

/-- Every event since `s₀` that issues commands on a client that lives has seen to them. -/
structure ProgressedSince (P : Program Loc Client Cb Blob App Action)
    (G : Guard Loc Client Cb Blob App Action) (lives : Client → Prop)
    (s₀ s : State Loc Client Cb Blob App Action) : Prop where
  pressed : ∀ a e, .pressed a e ∈ since s₀ s → ∃ app c app' cmds, G (.pressed a e) app ∧
    P.act a e app = some (c, app', cmds) ∧ (lives c → ∀ cmd ∈ cmds, Progress s c cmd)
  ran : ∀ t e, .ran t e ∈ since s₀ s → ∃ app, G (.ran t e) app ∧ (lives t.client →
    ∀ cmd ∈ (P.handle t.client e t.cb t.input app).2, Progress s t.client cmd)

/-- Every live child observer is or has been told about every child of its path. -/
def Covered (s : State Loc Client Cb Blob App Action) : Prop :=
  ∀ o ∈ s.childObs, ∀ k ∈ s.tree.children o.path, Due s ⟨o.client, o.cb, .childAdded k⟩

/-- Every event of a child observer belongs to an observer that is still live. -/
def Attached (s : State Loc Client Cb Blob App Action) : Prop :=
  ∀ c cb k, Due s ⟨c, cb, .childAdded k⟩ → ∃ p, ⟨c, p, cb⟩ ∈ s.childObs

theorem Origin.due {P : Program Loc Client Cb Blob App Action}
    {G : Guard Loc Client Cb Blob App Action} {s : State Loc Client Cb Blob App Action}
    (h : Origin P G s) {t : Task Loc Client Cb} (hdue : Due s t) : TaskOrigin P G s.log t := by
  rcases hdue with ht | ⟨e, hr⟩
  · exact h.tasks t ht
  · exact h.log _ hr

theorem Due.ran_of_quiescent {s : State Loc Client Cb Blob App Action} (hq : s.Quiescent)
    {t : Task Loc Client Cb} (h : Due s t) : ∃ e, .ran t e ∈ s.log := by
  rcases h with h | h
  · rw [hq.tasks] at h
    cases h
  · exact h

/-! When nothing is in flight, every command has been seen to. -/

namespace Progress

variable {s : State Loc Client Cb Blob App Action} {c : Client} (hq : s.Quiescent)
include hq

theorem write_of_quiescent {op : Op Loc} {cb : Option Cb} (h : Progress s c (.write op cb)) :
    ∃ ok, .resolved c op ok ∈ s.log ∧ ∀ cb' ∈ cb, ∃ e, .ran ⟨c, cb', .acked ok⟩ e ∈ s.log := by
  rcases h with h | ⟨ok, hr, hdue⟩
  · rw [hq.writes] at h
    cases h
  · exact ⟨ok, hr, fun cb' hcb => (hdue cb' hcb).ran_of_quiescent hq⟩

theorem childAdded_of_quiescent {p : Path} {cb : Cb} (h : Progress s c (.ask (.childAdded p cb))) :
    ⟨c, p, cb⟩ ∈ s.childObs := by
  rcases h with h | h
  · rw [hq.asks] at h
    cases h
  · exact h

theorem single_of_quiescent {l : Loc} {cb : Cb} (h : Progress s c (.ask (.single l cb))) :
    ∃ v e, .ran ⟨c, cb, .value l v⟩ e ∈ s.log := by
  rcases h with h | ⟨v, hdue⟩
  · rw [hq.asks] at h
    cases h
  · exact ⟨v, hdue.ran_of_quiescent hq⟩

theorem value_of_quiescent {l : Loc} {cb : Cb} (h : Progress s c (.ask (.value l cb))) :
    ∃ v e, .ran ⟨c, cb, .value l v⟩ e ∈ s.log := by
  rcases h with h | ⟨-, v, hdue⟩
  · rw [hq.asks] at h
    cases h
  · exact ⟨v, hdue.ran_of_quiescent hq⟩

end Progress

section Step

variable [DecidableEq Loc] [DecidableEq Client] {P : Program Loc Client Cb Blob App Action}
  {s s' : State Loc Client Cb Blob App Action} {l : Label Client Action}

theorem mem_eraseIdx_or {α : Type} {xs : List α} {i : Nat} {x y : α} (hy : xs[i]? = some y)
    (hx : x ∈ xs) : x = y ∨ x ∈ xs.eraseIdx i := by
  rw [List.mem_eraseIdx_iff_getElem?]
  obtain ⟨j, hj⟩ := List.mem_iff_getElem?.1 hx
  by_cases hij : j = i
  · subst hij
    rw [hj] at hy
    exact .inl (Option.some.inj hy)
  · exact .inr ⟨j, hij, hj⟩

/-- A task waits until it runs. -/
theorem tasks_step {t : Task Loc Client Cb} (h : t ∈ s.tasks) (hs : Transition P s l s')
    (hl : l ≠ .die t.client) : t ∈ s'.tasks ∨
      ∃ i e app cmds, P.handle t.client e t.cb t.input s.app = (app, cmds) ∧
        s' = s.ran i t e app cmds := by
  cases hs with
  | run _ ht hrun =>
    rcases mem_eraseIdx_or ht h with rfl | h
    · exact .inr ⟨_, _, _, _, hrun, rfl⟩
    · exact .inl h
  | press => exact .inl h
  | apply => exact .inl (List.mem_append_left _ h)
  | reject => exact .inl (List.mem_append_left _ h)
  | serve => exact .inl (List.mem_append_left _ h)
  | die => exact .inl (List.mem_filter.2 ⟨h, decide_eq_true fun he => hl (by rw [he])⟩)

/-- A task that is due stays due: the step that runs it logs that it ran. -/
theorem Due.step {t : Task Loc Client Cb} (h : Due s t) (hs : Transition P s l s')
    (hl : l ≠ .die t.client) : Due s' t := by
  rcases h with h | ⟨e, h⟩
  · rcases tasks_step h hs hl with h | ⟨i, e, app, cmds, -, rfl⟩
    · exact .inl h
    · exact .inr ⟨e, List.mem_cons_self⟩
  · exact .inr ⟨e, hs.log_mono _ h⟩

/-- A task that waits was waiting before the step, or it answers a request, or a write raised it or
was completed. -/
theorem mem_tasks_step {t : Task Loc Client Cb} (h : t ∈ s'.tasks) (hs : Transition P s l s') :
    t ∈ s.tasks ∨ (∃ i c a ok, (c, a) ∈ s.asks ∧ s' = s.served i c a ok ∧ t ∈ s.answer c a ok) ∨
      (∃ i, ∃ w ∈ s.writes, s' = s.applied i w ∧
        (t ∈ s.childEvents w.op ∨ t ∈ s.valueEvents w.op)) ∨
      ∃ w ∈ s.writes, ∃ ok, t ∈ w.ack ok := by
  cases hs with
  | press => exact .inl h
  | run => exact .inl (List.mem_of_mem_eraseIdx h)
  | @apply i w hw =>
    have hmem := List.mem_of_getElem? hw
    simp only [State.applied_tasks, List.mem_append] at h
    rcases h with h | h | h
    · exact .inl h
    · exact .inr (.inr (.inl ⟨i, w, hmem, rfl, h⟩))
    · exact .inr (.inr (.inr ⟨w, hmem, true, h⟩))
  | @reject i w hw =>
    rcases List.mem_append.1 h with h | h
    · exact .inl h
    · exact .inr (.inr (.inr ⟨w, List.mem_of_getElem? hw, false, h⟩))
  | @serve i c a ok ha =>
    rcases List.mem_append.1 h with h | h
    · exact .inl h
    · exact .inr (.inl ⟨i, c, a, ok, List.mem_of_getElem? ha, rfl, h⟩)
  | die => exact .inl (List.mem_filter.1 h).1

/-- The same of a task that is due. -/
theorem Due.cases {t : Task Loc Client Cb} (h : Due s' t) (hs : Transition P s l s') :
    Due s t ∨ (∃ i c a ok, (c, a) ∈ s.asks ∧ s' = s.served i c a ok ∧ t ∈ s.answer c a ok) ∨
      (∃ i, ∃ w ∈ s.writes, s' = s.applied i w ∧
        (t ∈ s.childEvents w.op ∨ t ∈ s.valueEvents w.op)) ∨
      ∃ w ∈ s.writes, ∃ ok, t ∈ w.ack ok := by
  rcases h with h | ⟨e, h⟩
  · exact (mem_tasks_step h hs).imp_left .inl
  · -- only a task that waits is logged as run
    refine .inl ?_
    cases hs with
    | run _ ht =>
      rcases List.mem_cons.1 h with h | h
      · cases h
        exact .inl (List.mem_of_getElem? ht)
      · exact .inr ⟨e, h⟩
    | press | apply | reject | serve | die =>
      exact .inr ⟨e, (List.mem_cons.1 h).resolve_left (by simp)⟩

/-- An event of a child observer was due before the step, or it is told about a child when the server
attaches it, or a write adds the child. -/
theorem Due.childAdded_cases {c : Client} {cb : Cb} {k : String}
    (h : Due s' ⟨c, cb, .childAdded k⟩) (hs : Transition P s l s') :
    Due s ⟨c, cb, .childAdded k⟩ ∨
      (∃ i p ok, (c, .childAdded p cb) ∈ s.asks ∧ s' = s.served i c (.childAdded p cb) ok ∧
        k ∈ s.tree.children p) ∨
      ∃ i w p l₀ v, w ∈ s.writes ∧ s' = s.applied i w ∧ w.op = .update l₀ v ∧
        ⟨c, p, cb⟩ ∈ s.childObs ∧ Tree.childKey p l₀ = some k := by
  rcases h.cases hs with h | ⟨i, c', a, ok, ha, rfl, hans⟩ | ⟨i, w, hw, rfl, hev | hev⟩ |
    ⟨w, -, ok, hack⟩
  · exact .inl h
  · cases a with
    | childAdded p cb' =>
      obtain ⟨k', hk, he⟩ := List.mem_map.1 hans
      cases he
      exact .inr (.inl ⟨i, p, ok, ha, rfl, hk⟩)
    | value | single | putData | downloadURL => cases List.mem_singleton.1 hans
  · obtain ⟨o, ho, l₀, v, k', hop, hk, -, he⟩ := mem_childEvents.1 hev
    cases he
    exact .inr (.inr ⟨i, w, o.path, l₀, v, hw, rfl, hop, ho, hk⟩)
  · obtain ⟨o, -, -, he⟩ := mem_valueEvents.1 hev
    cases he
  · obtain ⟨cb', -, he⟩ := mem_ack.1 hack
    cases he

/-- A value was due before the step, or the server reads it for a request, or it is there after a
write that its observer is told about. -/
theorem Due.value_cases {c : Client} {cb : Cb} {l₀ : Loc} {v : Option (Val l₀)}
    (h : Due s' ⟨c, cb, .value l₀ v⟩) (hs : Transition P s l s') :
    Due s ⟨c, cb, .value l₀ v⟩ ∨
      (((c, .single l₀ cb) ∈ s.asks ∨ (c, .value l₀ cb) ∈ s.asks) ∧ v = (s.view c).lookup l₀) ∨
      ∃ i, ∃ w ∈ s.writes, s' = s.applied i w ∧ ⟨c, l₀, cb⟩ ∈ s.valueObs ∧
        v = (w.op.apply s.tree).lookup l₀ := by
  rcases h.cases hs with h | ⟨i, c', a, ok, ha, rfl, hans⟩ | ⟨i, w, hw, rfl, hev | hev⟩ |
    ⟨w, -, ok, hack⟩
  · exact .inl h
  · refine .inr (.inl ?_)
    cases a with
    | childAdded p cb' =>
      obtain ⟨k', -, he⟩ := List.mem_map.1 hans
      cases he
    | value l' cb' =>
      cases List.mem_singleton.1 hans
      exact ⟨.inr ha, rfl⟩
    | single l' cb' =>
      cases List.mem_singleton.1 hans
      exact ⟨.inl ha, rfl⟩
    | putData | downloadURL => cases List.mem_singleton.1 hans
  · obtain ⟨o, -, l', v', k', -, -, -, he⟩ := mem_childEvents.1 hev
    cases he
  · obtain ⟨o, ho, -, he⟩ := mem_valueEvents.1 hev
    cases he
    exact .inr (.inr ⟨i, w, hw, rfl, ho, rfl⟩)
  · obtain ⟨cb', -, he⟩ := mem_ack.1 hack
    cases he

/-- A child observer was there before the step, or the server attaches it. -/
theorem mem_childObs_step {o : ChildObserver Client Cb} (h : o ∈ s'.childObs)
    (hs : Transition P s l s') : o ∈ s.childObs ∨ ∃ i ok,
      (o.client, .childAdded o.path o.cb) ∈ s.asks ∧
        s' = s.served i o.client (.childAdded o.path o.cb) ok := by
  cases hs with
  | @serve i c a ok ha =>
    rcases List.mem_append.1 h with h | h
    · exact .inl h
    · obtain ⟨rfl, rfl⟩ := mem_childObserver.1 h
      exact .inr ⟨i, ok, List.mem_of_getElem? ha, rfl⟩
  | die => exact .inl (List.mem_filter.1 h).1
  | press | run | apply | reject => exact .inl h

/-- An observer stays as long as its client does. -/
theorem childObs_step {o : ChildObserver Client Cb} (h : o ∈ s.childObs)
    (hs : Transition P s l s') (hl : l ≠ .die o.client) : o ∈ s'.childObs := by
  cases hs with
  | serve => exact List.mem_append_left _ h
  | die => exact List.mem_filter.2 ⟨h, decide_eq_true fun he => hl (by rw [he])⟩
  | _ => exact h

theorem valueObs_step {o : ValueObserver Loc Client Cb} (h : o ∈ s.valueObs)
    (hs : Transition P s l s') (hl : l ≠ .die o.client) : o ∈ s'.valueObs := by
  cases hs with
  | serve => exact List.mem_append_left _ h
  | die => exact List.mem_filter.2 ⟨h, decide_eq_true fun he => hl (by rw [he])⟩
  | _ => exact h

/-- A write waits until the server answers it. -/
theorem writes_step {w : Write Loc Client Cb} (h : w ∈ s.writes) (hs : Transition P s l s')
    (hl : l ≠ .die w.client) : w ∈ s'.writes ∨
      ∃ ok, .resolved w.client w.op ok ∈ s'.log ∧
        ∀ cb ∈ w.completion, Due s' ⟨w.client, cb, .acked ok⟩ := by
  cases hs with
  | apply hw =>
    rcases mem_eraseIdx_or hw h with rfl | h
    · refine .inr ⟨true, List.mem_cons_self, fun cb hcb => .inl ?_⟩
      exact List.mem_append_right _ (List.mem_append_right _ (mem_ack.2 ⟨cb, hcb, rfl⟩))
    · exact .inl h
  | reject hw =>
    rcases mem_eraseIdx_or hw h with rfl | h
    · exact .inr ⟨false, List.mem_cons_self, fun cb hcb =>
        .inl (List.mem_append_right _ (mem_ack.2 ⟨cb, hcb, rfl⟩))⟩
    · exact .inl h
  | press => exact .inl (List.mem_append_left _ h)
  | run => exact .inl (List.mem_append_left _ h)
  | serve => exact .inl h
  | die => exact .inl (List.mem_filter.2 ⟨h, decide_eq_true fun he => hl (by rw [he])⟩)

/-- Until a write is answered it waits, and then its completion does. -/
theorem ack_step {c : Client} {op : Op Loc} {cb : Cb} (h : ⟨c, op, some cb⟩ ∈ s.writes)
    (hs : Transition P s l s') (hl : l ≠ .die c) :
    ⟨c, op, some cb⟩ ∈ s'.writes ∨ ∃ ok, ⟨c, cb, .acked ok⟩ ∈ s'.tasks := by
  cases hs with
  | apply hw =>
    rcases mem_eraseIdx_or hw h with rfl | h
    · exact .inr ⟨true, List.mem_append_right _ (List.mem_append_right _
        (mem_ack.2 ⟨cb, rfl, rfl⟩))⟩
    · exact .inl h
  | reject hw =>
    rcases mem_eraseIdx_or hw h with rfl | h
    · exact .inr ⟨false, List.mem_append_right _ (mem_ack.2 ⟨cb, rfl, rfl⟩)⟩
    · exact .inl h
  | press => exact .inl (List.mem_append_left _ h)
  | run => exact .inl (List.mem_append_left _ h)
  | serve => exact .inl h
  | die => exact .inl (List.mem_filter.2 ⟨h, decide_eq_true fun he => hl (congrArg _ he.symm)⟩)

/-- A removal that waits is accepted, and what it covers is gone, or it is rejected or waits on. -/
theorem removal_step {w : Write Loc Client Cb} {p : Path} {l₀ : Loc} (h : w ∈ s.writes)
    (hop : w.op = .remove p) (hp : p <+: path l₀) (hs : Transition P s l s')
    (hl : l ≠ .die w.client) : w ∈ s'.writes ∨ .resolved w.client w.op false ∈ s'.log ∨
      l₀ ∉ s'.tree ∧ ∃ i, l = .commit i true ∧ s.writes[i]? = some w := by
  cases hs with
  | apply hw =>
    rcases mem_eraseIdx_or hw h with rfl | h
    · refine .inr (.inr ⟨?_, _, rfl, hw⟩)
      rw [State.applied_tree, hop]
      exact fun hmem => (Tree.mem_remove.1 hmem).2 hp
    · exact .inl h
  | reject hw =>
    rcases mem_eraseIdx_or hw h with rfl | h
    · exact .inr (.inl List.mem_cons_self)
    · exact .inl h
  | press => exact .inl (List.mem_append_left _ h)
  | run => exact .inl (List.mem_append_left _ h)
  | serve => exact .inl h
  | die => exact .inl (List.mem_filter.2 ⟨h, decide_eq_true fun he => hl (by rw [he])⟩)

/-- Where no write is rejected, a removal waits until what it covers is gone. -/
theorem removal_step_of_accepts {c : Client} {p : Path} {cb : Option Cb}
    (h : ⟨c, .remove p, cb⟩ ∈ s.writes) (hs : Transition P s l s') (hl : l ≠ .die c)
    (hok : ∀ i, l ≠ .commit i false) :
    ⟨c, .remove p, cb⟩ ∈ s'.writes ∨ ∀ l₀ : Loc, p <+: path l₀ → l₀ ∉ s'.tree := by
  cases hs with
  | apply hw =>
    rcases mem_eraseIdx_or hw h with rfl | h
    · exact .inr fun l₀ hp hmem => (Tree.mem_remove.1 hmem).2 hp
    · exact .inl h
  | reject => exact absurd rfl (hok _)
  | press => exact .inl (List.mem_append_left _ h)
  | run => exact .inl (List.mem_append_left _ h)
  | serve => exact .inl h
  | die => exact .inl (List.mem_filter.2 ⟨h, decide_eq_true fun he => hl (congrArg _ he.symm)⟩)

/-- A request waits until the server serves it. -/
theorem asks_step {x : Client × Ask Loc Cb Blob} (h : x ∈ s.asks) (hs : Transition P s l s')
    (hl : l ≠ .die x.1) : x ∈ s'.asks ∨
      ∃ i ok, s' = s.served i x.1 x.2 ok := by
  cases hs with
  | serve ha =>
    rcases mem_eraseIdx_or ha h with rfl | h
    · exact .inr ⟨_, _, rfl⟩
    · exact .inl h
  | press => exact .inl (List.mem_append_left _ h)
  | run => exact .inl (List.mem_append_left _ h)
  | apply => exact .inl h
  | reject => exact .inl h
  | die => exact .inl (List.mem_filter.2 ⟨h, decide_eq_true fun he => hl (by rw [he])⟩)

/-- A served request has been answered. -/
theorem Progress.served (s : State Loc Client Cb Blob App Action) (i : Nat) (c : Client)
    (a : Ask Loc Cb Blob) (ok : Bool) : Progress (s.served i c a ok) c (.ask a) := by
  have due : ∀ t ∈ s.answer c a ok, Due (s.served i c a ok) t := fun t ht =>
    .inl (List.mem_append_right _ ht)
  cases a with
  | childAdded p cb => exact .inr (List.mem_append_right _ List.mem_cons_self)
  | value l cb =>
    exact .inr ⟨List.mem_append_right _ List.mem_cons_self, _, due _ List.mem_cons_self⟩
  | single l cb => exact .inr ⟨_, due _ List.mem_cons_self⟩
  | putData p d cb => exact .inr ⟨_, due _ List.mem_cons_self⟩
  | downloadURL p cb => exact .inr ⟨_, due _ List.mem_cons_self⟩

theorem Progress.step {c : Client} {cmd : Cmd Loc Cb Blob} (h : Progress s c cmd)
    (hs : Transition P s l s') (hl : l ≠ .die c) : Progress s' c cmd := by
  -- a request that still waits is kept or served
  have ask : ∀ a, (c, a) ∈ s.asks → (c, a) ∈ s'.asks ∨ Progress s' c (.ask a) := fun a ha =>
    (asks_step ha hs hl).imp_right fun ⟨i, ok, e⟩ => e ▸ Progress.served s i c a ok
  match cmd, h with
  | .write op cb, .inl h => exact writes_step h hs hl
  | .write op cb, .inr ⟨ok, hr, hdue⟩ =>
    exact .inr ⟨ok, hs.log_mono _ hr, fun cb' hcb => (hdue cb' hcb).step hs hl⟩
  | .ask (.childAdded p cb), .inl h => exact (ask _ h).elim .inl id
  | .ask (.childAdded p cb), .inr h => exact .inr (childObs_step h hs hl)
  | .ask (.value l cb), .inl h => exact (ask _ h).elim .inl id
  | .ask (.value l cb), .inr ⟨h, v, hdue⟩ =>
    exact .inr ⟨valueObs_step h hs hl, v, hdue.step hs hl⟩
  | .ask (.single l cb), .inl h => exact (ask _ h).elim .inl id
  | .ask (.single l cb), .inr ⟨v, hdue⟩ => exact .inr ⟨v, hdue.step hs hl⟩
  | .ask (.putData p d cb), .inl h => exact (ask _ h).elim .inl id
  | .ask (.putData p d cb), .inr ⟨ok, hdue⟩ => exact .inr ⟨ok, hdue.step hs hl⟩
  | .ask (.downloadURL p cb), .inl h => exact (ask _ h).elim .inl id
  | .ask (.downloadURL p cb), .inr ⟨u, hdue⟩ => exact .inr ⟨u, hdue.step hs hl⟩

omit [DecidableEq Loc] [DecidableEq Client] in
/-- A command that was just issued waits. -/
theorem Progress.of_new {c : Client} {cmd : Cmd Loc Cb Blob} {cmds : List (Cmd Loc Cb Blob)}
    (hcmd : cmd ∈ cmds) (hwrites : ∀ w ∈ newWrites c cmds, w ∈ s.writes)
    (hasks : ∀ x ∈ newAsks c cmds, x ∈ s.asks) : Progress s c cmd := by
  cases cmd with
  | write op cb => exact .inl (hwrites _ (mem_newWrites.2 ⟨rfl, hcmd⟩))
  | ask a =>
    have h := hasks (c, a) (mem_newAsks.2 ⟨rfl, hcmd⟩)
    cases a <;> exact .inl h

/-- A step that issues nothing keeps the progress of everything issued. -/
theorem ProgressedSince.keep {G : Guard Loc Client Cb Blob App Action} {lives : Client → Prop}
    {s₀ : State Loc Client Cb Blob App Action} (h : ProgressedSince P G lives s₀ s)
    (hs : Transition P s l s') (hl : ∀ c, lives c → l ≠ .die c) :
    (∀ a e, .pressed a e ∈ since s₀ s → ∃ app c app' cmds, G (.pressed a e) app ∧
      P.act a e app = some (c, app', cmds) ∧ (lives c → ∀ cmd ∈ cmds, Progress s' c cmd)) ∧
    ∀ t e, .ran t e ∈ since s₀ s → ∃ app, G (.ran t e) app ∧ (lives t.client →
      ∀ cmd ∈ (P.handle t.client e t.cb t.input app).2, Progress s' t.client cmd) := by
  refine ⟨fun a e hev => ?_, fun t e hev => ?_⟩
  · obtain ⟨app, c, app', cmds, hg, hact, hp⟩ := h.pressed a e hev
    exact ⟨app, c, app', cmds, hg, hact, fun hc cmd hcmd => (hp hc cmd hcmd).step hs (hl c hc)⟩
  · obtain ⟨app, hg, hp⟩ := h.ran t e hev
    exact ⟨app, hg, fun hc cmd hcmd => (hp hc cmd hcmd).step hs (hl _ hc)⟩

theorem ProgressedSince.step {G : Guard Loc Client Cb Blob App Action} {lives : Client → Prop}
    {s₀ : State Loc Client Cb Blob App Action} (h : ProgressedSince P G lives s₀ s)
    (hs : Transition P s l s') (hl : ∀ c, lives c → l ≠ .die c) (hG : G.Holds s l)
    (hlog : s₀.log <:+ s.log) : ProgressedSince P G lives s₀ s' := by
  obtain ⟨pressed, ran⟩ := h.keep hs hl
  cases hs with
  | @press a₀ e₀ c₀ app₀ cmds₀ hkey hact =>
    have hsince : since s₀ (s.pressed a₀ e₀ c₀ app₀ cmds₀) = .pressed a₀ e₀ :: since s₀ s :=
      since_cons hlog rfl
    refine ⟨fun a e hev => ?_, fun t e hev => ?_⟩
    · rw [hsince] at hev
      rcases List.mem_cons.1 hev with hev | hev
      · cases hev
        exact ⟨_, _, _, _, hG, hact, fun _ cmd hcmd =>
          .of_new hcmd (fun _ => List.mem_append_right _) fun _ => List.mem_append_right _⟩
      · exact pressed a e hev
    · rw [hsince] at hev
      exact ran t e ((List.mem_cons.1 hev).resolve_left (by simp))
  | @run i₀ e₀ t₀ app₀ cmds₀ hkey ht hrun =>
    have hsince : since s₀ (s.ran i₀ t₀ e₀ app₀ cmds₀) = .ran t₀ e₀ :: since s₀ s :=
      since_cons hlog rfl
    refine ⟨fun a e hev => ?_, fun t e hev => ?_⟩
    · rw [hsince] at hev
      exact pressed a e ((List.mem_cons.1 hev).resolve_left (by simp))
    · rw [hsince] at hev
      rcases List.mem_cons.1 hev with hev | hev
      · cases hev
        refine ⟨s.app, hG _ ht, fun _ cmd hcmd => ?_⟩
        rw [hrun] at hcmd
        exact .of_new hcmd (fun _ => List.mem_append_right _) fun _ => List.mem_append_right _
      · exact ran t e hev
  | @apply i w | @reject i w | @serve i c a ok | @die c =>
    refine ⟨fun a e hev => ?_, fun t e hev => ?_⟩
    · rw [since_cons hlog rfl] at hev
      exact pressed a e ((List.mem_cons.1 hev).resolve_left (by simp))
    · rw [since_cons hlog rfl] at hev
      exact ran t e ((List.mem_cons.1 hev).resolve_left (by simp))

theorem Covered.step (h : Covered s) (hs : Transition P s l s') : Covered s' := by
  have old : ∀ o ∈ s.childObs, l ≠ .die o.client → ∀ k ∈ s.tree.children o.path,
      Due s' ⟨o.client, o.cb, .childAdded k⟩ := fun o ho hl k hk => (h o ho k hk).step hs hl
  cases hs with
  | @apply i w hw hfirst =>
    intro o ho k hk
    obtain ⟨c, op, cb⟩ := w
    cases op with
    | update l v =>
      by_cases hnew : k ∈ s.tree.children o.path
      · exact old o ho (by simp) k hnew
      · rcases Tree.mem_children_update.1 hk with hk | hk
        · exact .inl (List.mem_append_right _ (List.mem_append_left _ (List.mem_append_left _
            (mem_childEvents.2 ⟨o, ho, l, v, k, rfl, hk, hnew, rfl⟩))))
        · exact absurd hk hnew
    | remove p => exact old o ho (by simp) k (Tree.mem_children_of_remove hk)
  | @serve i c a ok ha =>
    intro o ho k hk
    rcases List.mem_append.1 ho with ho | ho
    · exact old o ho (by simp) k hk
    · obtain ⟨rfl, rfl⟩ := mem_childObserver.1 ho
      exact .inl (List.mem_append_right _ (List.mem_map.2 ⟨k, hk, rfl⟩))
  | press | run | reject => exact fun o ho => old o ho (by simp)
  | @die c =>
    intro o ho
    obtain ⟨ho, hc⟩ := List.mem_filter.1 ho
    exact old o ho fun he => of_decide_eq_true hc (by cases he; rfl)

theorem Attached.step (h : Attached s) (hs : Transition P s l s') (hl : ∀ c, l ≠ .die c) :
    Attached s' := by
  intro c cb k hdue
  rcases hdue.childAdded_cases hs with hdue | ⟨i, p, ok, -, rfl, -⟩ |
    ⟨i, w, p, l₀, v, -, -, -, ho, -⟩
  · exact (h c cb k hdue).imp fun p hp => childObs_step hp hs (hl _)
  · exact ⟨p, List.mem_append_right _ List.mem_cons_self⟩
  · exact ⟨p, childObs_step ho hs (hl _)⟩

end Step

/-! ## Over runs -/

section Runs

variable [DecidableEq Loc] [DecidableEq Client] {P : Program Loc Client Cb Blob App Action}
  {s s' : State Loc Client Cb Blob App Action}
  {ok : State Loc Client Cb Blob App Action → Label Client Action → Prop}

theorem ProgressedSince.of_reaches {G : Guard Loc Client Cb Blob App Action}
    {lives : Client → Prop} (hok : ∀ s c, lives c → ¬ ok s (.die c))
    (hG : ∀ {t l}, Reaches (Realtime.step P) ok s t → ok t l → G.Holds t l)
    (h : Reaches (Realtime.step P) ok s s') : ProgressedSince P G lives s s' :=
  h.invariant_of_reached (I := fun s' => ProgressedSince P G lives s s') ⟨by simp, by simp⟩
    fun ht hp hl hstep => hp.step (transition_of_step hstep) (fun c hc e => hok _ c hc (e ▸ hl))
      (hG ht hl) (log_suffix ht)

theorem Progressed.of_reaches {G : Guard Loc Client Cb Blob App Action} (hs : Initial s)
    (hok : NoDeath ok) (hG : ∀ {t l}, Reaches (Realtime.step P) ok s t → ok t l → G.Holds t l)
    (h : Reaches (Realtime.step P) ok s s') : Progressed P G s' := by
  have hsince : since s s' = s'.log := by simp [since, hs.log]
  have hp : ProgressedSince P G (fun _ => True) s s' := .of_reaches (fun s c _ => hok s c) hG h
  refine ⟨fun a e hev => ?_, fun t e hev => ?_⟩
  · obtain ⟨app, c, app', cmds, hg, hact, hp⟩ := hp.pressed a e (hsince ▸ hev)
    exact ⟨app, c, app', cmds, hg, hact, hp trivial⟩
  · obtain ⟨app, hg, hp⟩ := hp.ran t e (hsince ▸ hev)
    exact ⟨app, hg, hp trivial⟩

theorem Progress.of_reaches {c : Client} {cmd : Cmd Loc Cb Blob} (hok : ∀ s, ¬ ok s (.die c))
    (h : Reaches (Realtime.step P) ok s s') (hp : Progress s c cmd) : Progress s' c cmd :=
  h.invariant (I := fun s => Progress s c cmd) hp fun ih hl hstep =>
    ih.step (transition_of_step hstep) fun e => hok _ (e ▸ hl)

/-- A run whose log has no event of a kind takes no step that logs one. -/
theorem avoids_of_reaches {Q : Event Loc Client Cb Blob Action → Prop}
    (h : Reaches (Realtime.step P) ok s s') (hno : ∀ ev ∈ since s s', ¬ Q ev) :
    Reaches (Realtime.step P) (fun s l => ok s l ∧ ∀ u, Transition P s l u → ∀ ev,
      u.log = ev :: s.log → ¬ Q ev) s s' := by
  induction h with
  | refl => exact .refl
  | tail ht hl hstep ih =>
    obtain ⟨ev, hlog, hsince⟩ := since_step ht (transition_of_step hstep)
    rw [hsince, List.forall_mem_cons] at hno
    refine (ih hno.2).tail ⟨hl, fun u hu ev' hlog' => ?_⟩ hstep
    rw [step_of_transition hu] at hstep
    cases hstep
    rw [hlog] at hlog'
    exact (List.cons.inj hlog').1 ▸ hno.1

/-- A run whose log has no death of `c` is one in which `c` lives. -/
theorem lives_of_reaches {c : Client} (h : Reaches (Realtime.step P) ok s s')
    (hc : .died c ∉ since s s') :
    Reaches (Realtime.step P) (fun s l => ok s l ∧ l ≠ .die c) s s' := by
  refine (avoids_of_reaches (Q := fun ev => ev = .died c) h fun ev hev he => hc (he ▸ hev)).mono
    fun s l hl => ⟨hl.1, ?_⟩
  rintro rfl
  exact hl.2 _ .die _ rfl rfl

theorem Covered.of_reaches (hs : Initial s) (h : Reaches (Realtime.step P) ok s s') : Covered s' :=
  h.invariant (fun o ho => by simp [hs.childObs] at ho) fun hp _ hstep =>
    hp.step (transition_of_step hstep)

theorem Attached.of_reaches (hs : Initial s) (hok : NoDeath ok)
    (h : Reaches (Realtime.step P) ok s s') : Attached s' :=
  h.invariant (fun c cb k hdue => by
      rcases hdue with h | ⟨e, h⟩
      · simp [hs.tasks] at h
      · simp [hs.log] at h)
    fun hp hl hstep => hp.step (transition_of_step hstep) fun c e => hok _ c (e ▸ hl)

theorem Due.of_reaches {t : Task Loc Client Cb} (hok : NoDeath ok)
    (h : Reaches (Realtime.step P) ok s s') (hdue : Due s t) : Due s' t := by
  induction h with
  | refl => exact hdue
  | tail _ hl hstep ih => exact ih.step (transition_of_step hstep) fun e => hok _ _ (e ▸ hl)

end Runs

/-- A reply carries what its client saw at the location at some moment of the run, or what a write
that a value observer is told about left there. -/
theorem reply_of_reaches [DecidableEq Loc] [DecidableEq Client]
    {P : Program Loc Client Cb Blob App Action} {s s' : State Loc Client Cb Blob App Action}
    {ok : State Loc Client Cb Blob App Action → Label Client Action → Prop} (hs : Initial s)
    (h : Reaches (Realtime.step P) ok s s') {c : Client} {cb : Cb} {l : Loc} {v : Option (Val l)}
    (hdue : Due s' ⟨c, cb, .value l v⟩) :
    ∃ u, Reaches (Realtime.step P) ok s u ∧ Reaches (Realtime.step P) ok u s' ∧
      (((c, .single l cb) ∈ u.asks ∨ (c, .value l cb) ∈ u.asks) ∧ v = (u.view c).lookup l ∨
        ∃ w ∈ u.writes, ⟨c, l, cb⟩ ∈ u.valueObs ∧ .resolved w.client w.op true ∈ s'.log ∧
          v = (w.op.apply u.tree).lookup l) := by
  induction h with
  | refl =>
    rcases hdue with h | ⟨e, h⟩
    · simp [hs.tasks] at h
    · simp [hs.log] at h
  | @tail t u l ht hl hstep ih =>
    have now : Reaches (Realtime.step P) ok t u := Reaches.refl.tail hl hstep
    rcases hdue.value_cases (transition_of_step hstep) with hdue | hread | ⟨i, w, hw, rfl, ho, hv⟩
    · obtain ⟨u', h₁, h₂, h₃⟩ := ih hdue
      refine ⟨u', h₁, h₂.trans now, h₃.imp_right fun ⟨w, hw, ho, hr, hv⟩ => ⟨w, hw, ho, ?_, hv⟩⟩
      exact (transition_of_step hstep).log_mono _ hr
    · exact ⟨t, ht, now, .inl hread⟩
    · exact ⟨t, ht, now, .inr ⟨w, hw, ho, List.mem_cons_self, hv⟩⟩

/-- Where writing replaces, the value of a reply was written, or its own client writes it. -/
theorem written_of_reply [DecidableEq Loc] [DecidableEq Client]
    {P : Program Loc Client Cb Blob App Action} {G : Guard Loc Client Cb Blob App Action}
    {s s' : State Loc Client Cb Blob App Action}
    {ok : State Loc Client Cb Blob App Action → Label Client Action → Prop} {l : Loc}
    (hs : Initial s) (hm : ∀ new old : Val l, Schema.merge l new old = new)
    (horigin : ∀ u, Reaches (Realtime.step P) ok s u → Origin P G u)
    (hvalues : ∀ u, Reaches (Realtime.step P) ok s u → ValuesWritten (fun _ => True) u)
    (h : Reaches (Realtime.step P) ok s s') {c : Client} {cb : Cb} {v : Val l}
    (hdue : Due s' ⟨c, cb, .value l (some v)⟩) :
    (∃ c', .resolved c' (.update l v) true ∈ s'.log) ∨
      ∃ cb', Issued P G s'.log c (.write (.update l v) cb') := by
  obtain ⟨u, hu, hu', hv⟩ := reply_of_reaches hs h hdue
  have hlog := (log_suffix hu').subset
  have tree : u.tree.lookup l = some v → ∃ c', .resolved c' (.update l v) true ∈ s'.log := by
    intro hv
    obtain ⟨c', hr⟩ := hvalues u hu l v trivial hv
    exact ⟨c', hlog hr⟩
  rcases hv with ⟨-, hv⟩ | ⟨w, hw, -, hr, hv⟩
  · rcases lookup_view_cases hm hv.symm with hv | ⟨w, hw, rfl, hop⟩
    · exact .inl (tree hv)
    · have hi := (horigin u hu).writes w hw
      rw [hop] at hi
      exact .inr ⟨_, hi.mono fun _ hev => hlog hev⟩
  · rcases lookup_apply_cases hm hv.symm with hv | hop
    · exact .inl (tree hv)
    · exact .inl ⟨_, hop ▸ hr⟩

/-- Where writing replaces, the value of a reply was issued by a press or a callback. -/
theorem issued_of_reply [DecidableEq Loc] [DecidableEq Client]
    {P : Program Loc Client Cb Blob App Action} {G : Guard Loc Client Cb Blob App Action}
    {s s' : State Loc Client Cb Blob App Action}
    {ok : State Loc Client Cb Blob App Action → Label Client Action → Prop} {l : Loc}
    (hs : Initial s) (hm : ∀ new old : Val l, Schema.merge l new old = new)
    (horigin : ∀ u, Reaches (Realtime.step P) ok s u → Origin P G u)
    (hvalues : ∀ u, Reaches (Realtime.step P) ok s u → ValuesWritten (fun _ => True) u)
    (h : Reaches (Realtime.step P) ok s s') {c : Client} {cb : Cb} {v : Val l}
    (hdue : Due s' ⟨c, cb, .value l (some v)⟩) :
    ∃ c' cb', Issued P G s'.log c' (.write (.update l v) cb') := by
  rcases written_of_reply hs hm horigin hvalues h hdue with ⟨c', hr⟩ | hi
  · obtain ⟨cb', hi⟩ := (horigin s' h).log _ hr
    exact ⟨c', cb', hi⟩
  · exact ⟨c, hi⟩

end Realtime
