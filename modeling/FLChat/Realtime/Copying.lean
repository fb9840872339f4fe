import FLChat.Realtime.Founded

/-!
# Values that are copied

Some locations are sources: what is written there is new. What is written anywhere else is put
together from what the client has read, perhaps long ago and on another client's word. `Copying`
says which facts a value states, which locations are sources, and which facts a client has in
memory.

As long as a client copies only what it has in memory or is told (`Copies`), and no write to a source
is rejected, whatever a client has in memory was taken by the server at a source or waits in the
client's own queue (`Faithful.memory`), and what was taken was there (`held_of_told`). As a client's
writes are taken in their order, a copy is never taken before what it copies.
-/

namespace Realtime

variable {Loc Client Cb Blob App Action Fact : Type} [Schema Loc]

/-- The facts that values state, where they come from, and what a client has in memory. -/
structure Copying (Loc Client App Fact : Type) [Schema Loc] where
  shows : (l : Loc) → Val l → Fact → Prop
  source : Loc → Prop
  holds : App → Client → Fact → Prop

namespace Copying

variable (C : Copying Loc Client App Fact) {K K' : Fact → Prop} {f : Fact}

/-- The write states the fact at a source. -/
def gives (op : Op Loc) (f : Fact) : Prop := ∃ l v, op = .update l v ∧ C.source l ∧ C.shows l v f

/-- The write states the fact elsewhere. -/
def copies (op : Op Loc) (f : Fact) : Prop := ∃ l v, op = .update l v ∧ ¬ C.source l ∧ C.shows l v f

/-- A callback is told the fact. -/
def tells : Input Loc → Fact → Prop
  | .value l (some v), f => C.shows l v f
  | _, _ => False

/-- The server took a write that gives the fact. -/
def Told (log : List (Event Loc Client Cb Blob Action)) (f : Fact) : Prop :=
  ∃ c op, .resolved c op true ∈ log ∧ C.gives op f

/-- What a client may copy. -/
def Known [DecidableEq Client] (s : State Loc Client Cb Blob App Action) (c : Client) (f : Fact) :
    Prop :=
  C.Told s.log f ∨ ∃ op ∈ s.queue c, C.gives op f

/-- The value states nothing but what is known. -/
def Stated (K : Fact → Prop) (l : Loc) (v : Val l) : Prop := ∀ f, C.shows l v f → K f

/-- Each of the writes copies what is known by its turn. -/
def Backed (K : Fact → Prop) : List (Op Loc) → Prop
  | [] => True
  | op :: ops => (∀ f, C.copies op f → K f) ∧ Backed (fun f => K f ∨ C.gives op f) ops

variable {C} {ops ops' : List (Op Loc)} {op : Op Loc}
  {log log' : List (Event Loc Client Cb Blob Action)}

theorem Told.mono (h : C.Told log f) (hlog : ∀ ev ∈ log, ev ∈ log') : C.Told log' f := by
  obtain ⟨c, op, hev, hgives⟩ := h
  exact ⟨c, op, hlog _ hev, hgives⟩

theorem Backed.mono (h : C.Backed K ops) (hK : ∀ f, K f → K' f) : C.Backed K' ops := by
  induction ops generalizing K K' with
  | nil => trivial
  | cons op ops ih => exact ⟨fun f hf => hK f (h.1 f hf), ih h.2 fun f => Or.imp_left (hK f)⟩

theorem backed_append : C.Backed K (ops ++ ops') ↔
    C.Backed K ops ∧ C.Backed (fun f => K f ∨ ∃ op ∈ ops, C.gives op f) ops' := by
  induction ops generalizing K with
  | nil => simp [Backed]
  | cons op ops ih =>
    simp only [List.cons_append, Backed, ih, and_assoc, List.mem_cons, exists_eq_or_imp, or_assoc]

theorem backed_of_forall (h : ∀ op ∈ ops, ∀ f, C.copies op f → K f) : C.Backed K ops := by
  induction ops generalizing K with
  | nil => trivial
  | cons op ops ih =>
    refine ⟨h op List.mem_cons_self, ih fun op' hop f hf => .inl ?_⟩
    exact h op' (List.mem_cons_of_mem _ hop) f hf

/-- Merging adds no facts. -/
def Merges (C : Copying Loc Client App Fact) : Prop :=
  ∀ l new old f, C.shows l (Schema.merge l new old) f → C.shows l new f ∨ C.shows l old f

/-- What is written stays in a source until it is written again. -/
def Overwrites (C : Copying Loc Client App Fact) : Prop :=
  ∀ l new old f, C.source l → C.shows l new f → C.shows l (Schema.merge l new old) f

/-- A source states the fact. -/
def HeldIn (C : Copying Loc Client App Fact) [DecidableEq Loc] (t : Tree Loc) (f : Fact) : Prop :=
  ∃ l v, C.source l ∧ t.lookup l = some v ∧ C.shows l v f

section Values

theorem mergeable_stated (hm : C.Merges) : Mergeable (C.Stated K) := fun l new old hnew hold f hf =>
  (hm l new old f hf).elim (hnew f) (hold f)

/-- What is not a source states what was copied there. -/
def Copied (C : Copying Loc Client App Fact) (K : Fact → Prop) (l : Loc) (v : Val l) : Prop :=
  ¬ C.source l → C.Stated K l v

theorem mergeable_copied (hm : C.Merges) : Mergeable (C.Copied K) := fun l new old hnew hold hl =>
  mergeable_stated hm l new old (hnew hl) (hold hl)

variable [DecidableEq Loc] {t : Tree Loc}

/-- Whatever is there meets `K`, where the sources state nothing else. -/
theorem stated_of_copied (ht : t.All (C.Copied K)) (hsources : ∀ f, C.HeldIn t f → K f) :
    t.All (C.Stated K) := by
  intro l v hv f hf
  by_cases hl : C.source l
  · exact hsources f ⟨l, v, hl, hv, hf⟩
  · exact ht l v hv hl f hf

theorem heldIn_apply (ho : C.Overwrites) (hf : C.gives op f) : C.HeldIn (op.apply t) f := by
  obtain ⟨l, v, rfl, hsource, hf⟩ := hf
  refine ⟨l, t.merged l v, hsource, Tree.lookup_update_self t l v, ?_⟩
  unfold Tree.merged
  split
  · exact hf
  · exact ho l v _ f hsource hf

variable (hm : C.Merges)
include hm

/-- A write leaves what was known and what it gives. -/
theorem stated_apply (ht : t.All (C.Stated K)) (hop : ∀ f, C.copies op f → K f) :
    (op.apply t).All (C.Stated fun f => K f ∨ C.gives op f) := by
  refine Tree.All.apply (mergeable_stated hm) (fun l v hv f hf => .inl (ht l v hv f hf)) ?_
  rintro l v rfl f hf
  by_cases hsource : C.source l
  · exact .inr ⟨l, v, rfl, hsource, hf⟩
  · exact .inl (hop f ⟨l, v, rfl, hsource, hf⟩)

theorem stated_applyAll (ht : t.All (C.Stated K)) (hops : C.Backed K ops) :
    (t.applyAll ops).All (C.Stated fun f => K f ∨ ∃ op ∈ ops, C.gives op f) := by
  induction ops generalizing t K with
  | nil => exact fun l v hv f hf => .inl (ht l v hv f hf)
  | cons op ops ih =>
    intro l v hv f hf
    rcases ih (stated_apply hm ht hops.1) hops.2 l v hv f hf with (hf | hf) | ⟨op', hop, hf⟩
    · exact .inl hf
    · exact .inr ⟨op, List.mem_cons_self, hf⟩
    · exact .inr ⟨op', List.mem_cons_of_mem _ hop, hf⟩

/-- What a source states after a write, it stated before, or the write gives it. -/
theorem heldIn_apply_cases (h : C.HeldIn (op.apply t) f) : C.HeldIn t f ∨ C.gives op f := by
  obtain ⟨l, v, hsource, hv, hf⟩ := h
  by_cases htouch : op.touches l = true
  · cases op with
    | update l' v' =>
      obtain rfl : l' = l := of_decide_eq_true htouch
      have hv : (t.update l' v').lookup l' = some v := hv
      rw [Tree.lookup_update_self, Tree.merged] at hv
      split at hv
      · cases hv
        exact .inr ⟨l', _, rfl, hsource, hf⟩
      · next old hold =>
        cases hv
        rcases hm _ _ _ _ hf with hf | hf
        · exact .inr ⟨l', _, rfl, hsource, hf⟩
        · exact .inl ⟨l', old, hsource, hold, hf⟩
    | remove p =>
      have hp : p.isPrefixOf (path l) = true := htouch
      have hgone : (t.remove p).lookup l = none := by
        rw [Tree.lookup_remove, if_pos hp]
      exact nomatch hgone.symm.trans hv
  · rw [Op.lookup_apply_of_not_touches (Bool.eq_false_iff.2 htouch)] at hv
    exact .inl ⟨l, v, hsource, hv, hf⟩

theorem heldIn_applyAll_cases (h : C.HeldIn (t.applyAll ops) f) :
    C.HeldIn t f ∨ ∃ op ∈ ops, C.gives op f := by
  induction ops generalizing t with
  | nil => exact .inl h
  | cons op ops ih =>
    rcases ih h with h | ⟨op', hop, hf⟩
    · exact (heldIn_apply_cases hm h).imp_right fun hf => ⟨op, List.mem_cons_self, hf⟩
    · exact .inr ⟨op', List.mem_cons_of_mem _ hop, hf⟩

end Values

/-! ## Steps -/

section Step

variable [DecidableEq Loc] [DecidableEq Client] {P : Program Loc Client Cb Blob App Action}
  {s s' : State Loc Client Cb Blob App Action} {l : Label Client Action} {c : Client}

/-- A client takes into memory what it is told, copies what it has in memory or is told, and forgets
everything when its process ends. -/
structure Copies (P : Program Loc Client Cb Blob App Action) (C : Copying Loc Client App Fact)
    (s : State Loc Client Cb Blob App Action) (l : Label Client Action) : Prop where
  press : ∀ a e c app cmds, l = .press a e → P.act a e s.app = some (c, app, cmds) →
    (∀ c' f, C.holds app c' f → C.holds s.app c' f) ∧
      ∀ op cb, .write op cb ∈ cmds → ∀ f, C.copies op f → C.holds s.app c f
  run : ∀ i t e app cmds, l = .run i e → s.tasks[i]? = some t →
    P.handle t.client e t.cb t.input s.app = (app, cmds) →
    (∀ c' f, C.holds app c' f → C.holds s.app c' f ∨ c' = t.client ∧ C.tells t.input f) ∧
      ∀ op cb, .write op cb ∈ cmds → ∀ f, C.copies op f → C.holds s.app t.client f
  reject : ∀ i w, l = .commit i false → s.writes[i]? = some w → ∀ f, ¬ C.gives w.op f
  die : ∀ c c' f, l = .die c → C.holds (P.die c s.app) c' f → c' ≠ c ∧ C.holds s.app c' f

/-- Whatever is there or in memory, or about to be, is known. -/
structure Faithful (C : Copying Loc Client App Fact)
    (s : State Loc Client Cb Blob App Action) : Prop where
  tree : s.tree.All (C.Stated (C.Told s.log))
  queues : ∀ c, C.Backed (C.Told s.log) (s.queue c)
  tasks : ∀ t ∈ s.tasks, ∀ f, C.tells t.input f → C.Known s t.client f
  memory : ∀ c f, C.holds s.app c f → C.Known s c f

namespace Faithful

theorem initial (hs : Initial s) (htree : s.tree = ∅) (happ : ∀ c f, ¬ C.holds s.app c f) :
    C.Faithful s where
  tree l v hv := by simp [htree] at hv
  queues c := by
    rw [State.queue, hs.writes]
    trivial
  tasks := by simp [hs.tasks]
  memory c f hf := absurd hf (happ c f)

variable (h : C.Faithful s)
include h

/-- What a client sees is known to it. -/
theorem view (hm : C.Merges) (c : Client) : (s.view c).All (C.Stated (C.Known s c)) := by
  rw [view_eq]
  exact stated_applyAll hm h.tree (h.queues c)

theorem issue {cmds : List (Cmd Loc Cb Blob)} (input : Option (Input Loc))
    (htree : s'.tree = s.tree) (hwrites : s'.writes = s.writes ++ newWrites c cmds)
    (hlog : ∀ c op b, .resolved c op b ∈ s'.log ↔ .resolved c op b ∈ s.log)
    (htasks : ∀ t ∈ s'.tasks, t ∈ s.tasks)
    (hinput : ∀ i ∈ input, ∀ f, C.tells i f → C.Known s c f)
    (happ : ∀ c' f, C.holds s'.app c' f →
      C.holds s.app c' f ∨ c' = c ∧ ∃ i ∈ input, C.tells i f)
    (hnew : ∀ op cb, .write op cb ∈ cmds → ∀ f, C.copies op f → C.holds s.app c f) :
    C.Faithful s' := by
  have htold : ∀ f, C.Told s'.log f ↔ C.Told s.log f := fun f =>
    exists_congr fun c => exists_congr fun op => and_congr_left' (hlog c op true)
  have hqueue : ∀ c', s'.queue c' = s.queue c' ++ queueOf c' (newWrites c cmds) := fun c' => by
    rw [State.queue, hwrites, queueOf_append]
    rfl
  have hknown : ∀ {c' f}, C.Known s c' f → C.Known s' c' f := by
    rintro c' f (hf | ⟨op, hop, hf⟩)
    · exact .inl ((htold f).2 hf)
    · rw [Known, hqueue]
      exact .inr ⟨op, List.mem_append_left _ hop, hf⟩
  refine ⟨fun l v hv f hf => (htold f).2 (h.tree l v (htree ▸ hv) f hf), fun c' => ?_,
    fun t ht f hf => hknown (h.tasks t (htasks t ht) f hf), fun c' f hf => hknown ?_⟩
  · rw [hqueue, backed_append]
    refine ⟨(h.queues c').mono fun f => (htold f).2, ?_⟩
    refine (backed_of_forall (K := C.Known s c') fun op hop f hf => ?_).mono fun f =>
      Or.imp_left (htold f).2
    obtain ⟨w, hw, rfl, rfl⟩ := mem_queueOf.1 hop
    obtain ⟨rfl, hcmd⟩ := mem_newWrites.1 hw
    exact h.memory _ f (hnew w.op _ hcmd f hf)
  · rcases happ c' f hf with hf | ⟨rfl, i, hi, hf⟩
    · exact h.memory c' f hf
    · exact hinput i hi f hf

/-- The server answers the first write of a client. What the write gives is known to all from then
on. -/
theorem answer {i : ℕ} {w : Write Loc Client Cb} (hw : s.writes[i]? = some w)
    (hfirst : s.FirstOfClient i w.client) (hwrites : s'.writes = s.writes.eraseIdx i)
    (hlog : ∀ ev ∈ s.log, ev ∈ s'.log) (happ : s'.app = s.app)
    (hgives : ∀ f, C.gives w.op f → C.Told s'.log f)
    (htree : s'.tree.All (C.Stated (C.Told s'.log)))
    (htasks : ∀ t ∈ s'.tasks, t ∈ s.tasks ∨ ∀ f, C.tells t.input f → C.Told s'.log f) :
    C.Faithful s' := by
  have hcons := queue_eq_cons hw hfirst
  have hown : s'.queue w.client = queueOf w.client (s.writes.eraseIdx i) := by
    rw [State.queue, hwrites]
  have hother : ∀ {c}, w.client ≠ c → s'.queue c = s.queue c := fun hc => by
    rw [State.queue, hwrites, queueOf_eraseIdx_ne hw hc]
  have htold : ∀ f, C.Told s.log f ∨ C.gives w.op f → C.Told s'.log f := fun f hf =>
    hf.elim (·.mono hlog) (hgives f)
  have hknown : ∀ {c f}, C.Known s c f → C.Known s' c f := by
    rintro c f (hf | ⟨op, hop, hf⟩)
    · exact .inl (htold f (.inl hf))
    · by_cases hc : w.client = c
      · subst hc
        rw [hcons] at hop
        rcases List.mem_cons.1 hop with rfl | hop
        · exact .inl (hgives f hf)
        · rw [Known, hown]
          exact .inr ⟨op, hop, hf⟩
      · rw [Known, hother hc]
        exact .inr ⟨op, hop, hf⟩
  refine ⟨htree, fun c => ?_, fun t ht f hf => ?_, fun c f hf => hknown (h.memory c f (happ ▸ hf))⟩
  · by_cases hc : w.client = c
    · subst hc
      have hhead := h.queues w.client
      rw [hcons] at hhead
      rw [hown]
      exact hhead.2.mono htold
    · rw [hother hc]
      exact (h.queues c).mono fun f hf => htold f (.inl hf)
  · rcases htasks t ht with ht | hnew
    · exact hknown (h.tasks t ht f hf)
    · exact .inl (hnew f hf)

theorem apply (hm : C.Merges) {i : ℕ} {w : Write Loc Client Cb} (hw : s.writes[i]? = some w)
    (hfirst : s.FirstOfClient i w.client) : C.Faithful (s.applied i w) := by
  have hlog : ∀ ev ∈ s.log, ev ∈ (s.applied i w).log := fun _ => List.mem_cons_of_mem _
  have hgives : ∀ f, C.gives w.op f → C.Told (s.applied i w).log f := fun f hf =>
    ⟨_, _, List.mem_cons_self, hf⟩
  have hhead := h.queues w.client
  rw [queue_eq_cons hw hfirst] at hhead
  have htree : (s.applied i w).tree.All (C.Stated (C.Told (s.applied i w).log)) :=
    fun l v hv f hf => (stated_apply hm h.tree hhead.1 l v hv f hf).elim (·.mono hlog) (hgives f)
  refine h.answer hw hfirst rfl hlog rfl hgives htree fun t ht => ?_
  rcases List.mem_append.1 ht with ht | ht
  · exact .inl ht
  · rcases List.mem_append.1 ht with ht | ht
    · rcases List.mem_append.1 ht with ht | ht
      · obtain ⟨o, -, l, v, k, -, -, -, rfl⟩ := mem_childEvents.1 ht
        exact .inr fun f hf => hf.elim
      · obtain ⟨o, -, -, rfl⟩ := mem_valueEvents.1 ht
        refine .inr fun f hf => ?_
        cases hv : (w.op.apply s.tree).lookup o.loc with
        | none =>
          rw [hv] at hf
          exact hf.elim
        | some v =>
          rw [hv] at hf
          exact htree _ v hv f hf
    · obtain ⟨cb, -, rfl⟩ := mem_ack.1 ht
      exact .inr fun f hf => hf.elim

theorem reject {i : ℕ} {w : Write Loc Client Cb} (hw : s.writes[i]? = some w)
    (hfirst : s.FirstOfClient i w.client) (hgives : ∀ f, ¬ C.gives w.op f) :
    C.Faithful (s.rejected i w) := by
  have hlog : ∀ ev ∈ s.log, ev ∈ (s.rejected i w).log := fun _ => List.mem_cons_of_mem _
  refine h.answer hw hfirst rfl hlog rfl (fun f hf => absurd hf (hgives f))
    (fun l v hv f hf => (h.tree l v hv f hf).mono hlog) fun t ht => ?_
  rcases List.mem_append.1 ht with ht | ht
  · exact .inl ht
  · obtain ⟨cb, -, rfl⟩ := mem_ack.1 ht
    exact .inr fun f hf => hf.elim

theorem serve (hm : C.Merges) {i : ℕ} {c : Client} {a : Ask Loc Cb Blob} {ok : Bool} :
    C.Faithful (s.served i c a ok) := by
  have htold : ∀ {f}, C.Told s.log f → C.Told (s.served i c a ok).log f := fun hf =>
    hf.mono fun ev => List.mem_cons_of_mem _
  have hknown : ∀ {c' f}, C.Known s c' f → C.Known (s.served i c a ok) c' f := fun hf =>
    hf.imp_left htold
  refine ⟨fun l v hv f hf => htold (h.tree l v hv f hf), fun c' => (h.queues c').mono fun f => htold,
    fun t ht f hf => hknown ?_, fun c' f hf => hknown (h.memory c' f hf)⟩
  rcases List.mem_append.1 ht with ht | ht
  · exact h.tasks t ht f hf
  · cases a with
    | childAdded p cb =>
      obtain ⟨k, -, rfl⟩ := List.mem_map.1 ht
      exact hf.elim
    | value l cb | single l cb =>
      cases List.mem_singleton.1 ht
      cases hv : (s.view c).lookup l with
      | none =>
        rw [hv] at hf
        exact hf.elim
      | some v =>
        rw [hv] at hf
        exact h.view hm c l v hv f hf
    | putData | downloadURL =>
      cases List.mem_singleton.1 ht
      exact hf.elim

theorem die {app : App} (happ : ∀ c' f, C.holds app c' f → c' ≠ c ∧ C.holds s.app c' f) :
    C.Faithful (s.died c app) := by
  have htold : ∀ {f}, C.Told s.log f → C.Told (s.died c app).log f := fun hf =>
    hf.mono fun ev => List.mem_cons_of_mem _
  have hknown : ∀ {c' f}, c' ≠ c → C.Known s c' f → C.Known (s.died c app) c' f := by
    intro c' f hc hf
    rw [Known, queue_died_ne hc]
    exact hf.imp_left htold
  refine ⟨fun l v hv f hf => htold (h.tree l v hv f hf), fun c' => ?_, fun t ht f hf => ?_,
    fun c' f hf => ?_⟩
  · by_cases hc : c' = c
    · subst hc
      rw [queue_died]
      trivial
    · rw [queue_died_ne hc]
      exact (h.queues c').mono fun f => htold
  · obtain ⟨ht, hc⟩ := List.mem_filter.1 ht
    exact hknown (of_decide_eq_true hc) (h.tasks t ht f hf)
  · obtain ⟨hc, hf⟩ := happ c' f hf
    exact hknown hc (h.memory c' f hf)

theorem step (hm : C.Merges) (hcopies : C.Copies P s l) (hs : Transition P s l s') :
    C.Faithful s' := by
  cases hs with
  | @press a e c app cmds hkey hact =>
    obtain ⟨happ, hnew⟩ := hcopies.press a e c app cmds rfl hact
    exact h.issue none rfl rfl (fun _ _ _ => by simp) (fun _ => id) (by simp)
      (fun c' f hf => .inl (happ c' f hf)) hnew
  | @run i e t app cmds hkey ht hrun =>
    obtain ⟨happ, hnew⟩ := hcopies.run i t e app cmds rfl ht hrun
    refine h.issue (c := t.client) (some t.input) rfl rfl (fun _ _ _ => by simp)
      (fun _ => List.mem_of_mem_eraseIdx) (fun i hi f hf => ?_) (fun c' f hf => ?_) hnew
    · cases hi
      exact h.tasks t (List.mem_of_getElem? ht) f hf
    · exact (happ c' f hf).imp_right fun hf => ⟨hf.1, _, rfl, hf.2⟩
  | apply hw hfirst => exact h.apply hm hw hfirst
  | @reject i w hw hfirst => exact h.reject hw hfirst (hcopies.reject i w rfl hw)
  | serve => exact h.serve hm
  | @die c => exact h.die fun c' f hf => hcopies.die c c' f rfl hf

end Faithful

theorem faithful_of_reaches {ok : State Loc Client Cb Blob App Action → Label Client Action → Prop}
    (hm : C.Merges) (h₀ : C.Faithful s)
    (hcopies : ∀ t l, Reaches (Realtime.step P) ok s t → ok t l → C.Copies P t l)
    (h : Reaches (Realtime.step P) ok s s') : C.Faithful s' :=
  h.invariant_of_reached h₀ fun ht ih hl hstep =>
    ih.step hm (hcopies _ _ ht hl) (transition_of_step hstep)

/-! ## What was there -/

section Held

variable {ok : State Loc Client Cb Blob App Action → Label Client Action → Prop}

/-- What the server took at a source was there. -/
theorem held_of_told (ho : C.Overwrites) (hs : Initial s) (h : Reaches (Realtime.step P) ok s s')
    (hf : C.Told s'.log f) : ∃ t, Reaches (Realtime.step P) ok s t ∧
      Reaches (Realtime.step P) ok t s' ∧ C.HeldIn t.tree f := by
  induction h with
  | refl =>
    obtain ⟨c, op, hev, -⟩ := hf
    simp [hs.log] at hev
  | @tail t u l ht hl hstep ih =>
    have now : Reaches (Realtime.step P) ok t u := Reaches.refl.tail hl hstep
    obtain ⟨c, op, hev, hgives⟩ := hf
    have old : .resolved c op true ∈ t.log → ∃ r, Reaches (Realtime.step P) ok s r ∧
        Reaches (Realtime.step P) ok r u ∧ C.HeldIn r.tree f := fun hev => by
      obtain ⟨r, h₁, h₂, h₃⟩ := ih ⟨c, op, hev, hgives⟩
      exact ⟨r, h₁, h₂.trans now, h₃⟩
    cases transition_of_step hstep with
    | apply =>
      rcases List.mem_cons.1 hev with hev | hev
      · cases hev
        exact ⟨_, ht.tail hl hstep, .refl, heldIn_apply ho hgives⟩
      · exact old hev
    | press | run | reject | serve | die => exact old ((List.mem_cons.1 hev).resolve_left (by simp))

/-- A source states the fact, or a client sees one that does. -/
def Visible (C : Copying Loc Client App Fact) (s : State Loc Client Cb Blob App Action) (f : Fact) :
    Prop :=
  C.HeldIn s.tree f ∨ ∃ c, C.HeldIn (s.view c) f

theorem Visible.held_or_waiting (hm : C.Merges) (h : C.Visible s f) :
    C.HeldIn s.tree f ∨ ∃ w ∈ s.writes, C.gives w.op f := by
  rcases h with h | ⟨c, h⟩
  · exact .inl h
  · rw [view_eq] at h
    refine (heldIn_applyAll_cases hm h).imp_right fun ⟨op, hop, hf⟩ => ?_
    obtain ⟨w, hw, -, rfl⟩ := mem_queueOf.1 hop
    exact ⟨w, hw, hf⟩

/-- The write leaves the fact where it is stated. -/
def Spares (C : Copying Loc Client App Fact) (op : Op Loc) (f : Fact) : Prop :=
  ∀ t, C.HeldIn t f → C.HeldIn (op.apply t) f

/-- No write is lost in this step: the server rejects none, and no process ends before its writes
are answered. -/
def LosesNothing (s : State Loc Client Cb Blob App Action) : Label Client Action → Prop
  | .commit _ ok => ok = true
  | .die c => ∀ w ∈ s.writes, w.client ≠ c
  | .press .. | .run .. | .serve .. => True

/-- What somebody saw is there in the end, if all that was taken since spares it. -/
theorem held_of_visible (hm : C.Merges) (ho : C.Overwrites)
    (hok : ∀ t l, ok t l → LosesNothing t l) (h : Reaches (Realtime.step P) ok s s')
    (hvisible : C.Visible s f) (hq : s'.Quiescent)
    (hspares : ∀ c op, .resolved c op true ∈ since s s' → C.Spares op f) : C.HeldIn s'.tree f := by
  have hkept : (∀ c op, .resolved c op true ∈ since s s' → C.Spares op f) →
      C.HeldIn s'.tree f ∨ ∃ w ∈ s'.writes, C.gives w.op f := by
    clear hspares hq
    induction h with
    | refl => exact fun _ => hvisible.held_or_waiting hm
    | @tail t u l ht hl hstep ih =>
      intro hspares
      have hs' := transition_of_step hstep
      obtain ⟨ev, -, hsince⟩ := since_step ht hs'
      have hlost := hok _ _ hl
      have ih := ih fun c op hev => hspares c op (hsince ▸ List.mem_cons_of_mem _ hev)
      cases hs' with
      | press | run => exact ih.imp_right fun ⟨w, hw, hf⟩ => ⟨w, List.mem_append_left _ hw, hf⟩
      | @apply i w hw hfirst =>
        have hspare := hspares w.client w.op (by
          rw [since_cons (log_suffix ht) rfl]
          exact List.mem_cons_self)
        rcases ih with h | ⟨w', hw', hf⟩
        · exact .inl (hspare _ h)
        · rcases mem_eraseIdx_or hw hw' with rfl | hw'
          · exact .inl (heldIn_apply ho hf)
          · exact .inr ⟨w', hw', hf⟩
      | reject => cases hlost
      | serve => exact ih
      | die =>
        refine ih.imp_right fun ⟨w, hw, hf⟩ => ⟨w, List.mem_filter.2 ⟨hw, ?_⟩, hf⟩
        exact decide_eq_true (hlost w hw)
  refine (hkept hspares).resolve_right fun ⟨w, hw, _⟩ => ?_
  rw [hq.writes] at hw
  cases hw

/-- Somebody saw the fact at a source in a state of the run. -/
def Seen (C : Copying Loc Client App Fact) (P : Program Loc Client Cb Blob App Action)
    (ok : State Loc Client Cb Blob App Action → Label Client Action → Prop)
    (s s' : State Loc Client Cb Blob App Action) (f : Fact) : Prop :=
  ∃ t, Reaches (Realtime.step P) ok s t ∧ Reaches (Realtime.step P) ok t s' ∧ C.Visible t f

/-- Every copy, and every fact that is told or in memory, meets `K`. -/
structure Sighted (C : Copying Loc Client App Fact) (K : Fact → Prop)
    (s : State Loc Client Cb Blob App Action) : Prop where
  tree : ∀ l v, ¬ C.source l → s.tree.lookup l = some v → C.Stated K l v
  writes : ∀ w ∈ s.writes, ∀ f, C.copies w.op f → K f
  tasks : ∀ t ∈ s.tasks, ∀ f, C.tells t.input f → K f
  memory : ∀ c f, C.holds s.app c f → K f

namespace Sighted

omit [DecidableEq Client] in
theorem initial (hs : Initial s) (htree : s.tree = ∅) (happ : ∀ c f, ¬ C.holds s.app c f) :
    C.Sighted K s where
  tree l v _ hv := by simp [htree] at hv
  writes := by simp [hs.writes]
  tasks := by simp [hs.tasks]
  memory c f hf := absurd hf (happ c f)

omit [DecidableEq Client] in
theorem mono (h : C.Sighted K s) (hK : ∀ f, K f → K' f) : C.Sighted K' s where
  tree l v hl hv f hf := hK f (h.tree l v hl hv f hf)
  writes w hw f hf := hK f (h.writes w hw f hf)
  tasks t ht f hf := hK f (h.tasks t ht f hf)
  memory c f hf := hK f (h.memory c f hf)

variable (h : C.Sighted K s)
include h

omit [DecidableEq Client] in
theorem stores : ∀ w ∈ s.writes, w.op.Stores (C.Copied K) := fun w hw l v hop hl f hf =>
  h.writes w hw f ⟨l, v, hop, hl, hf⟩

theorem step (hm : C.Merges) (hcopies : C.Copies P s l) (hs : Transition P s l s')
    (hvisible : ∀ f, C.Visible s f → K f) (hvisible' : ∀ f, C.Visible s' f → K f) :
    C.Sighted K s' := by
  cases hs with
  | @press a e c app cmds hkey hact =>
    obtain ⟨happ, hnew⟩ := hcopies.press a e c app cmds rfl hact
    refine ⟨h.tree, fun w hw f hf => ?_, h.tasks, fun c' f hf => h.memory c' f (happ c' f hf)⟩
    rcases List.mem_append.1 hw with hw | hw
    · exact h.writes w hw f hf
    · exact h.memory c f (hnew _ _ (mem_newWrites.1 hw).2 f hf)
  | @run i e t app cmds hkey ht hrun =>
    obtain ⟨happ, hnew⟩ := hcopies.run i t e app cmds rfl ht hrun
    refine ⟨h.tree, fun w hw f hf => ?_,
      fun t' ht' => h.tasks t' (List.mem_of_mem_eraseIdx ht'), fun c' f hf => ?_⟩
    · rcases List.mem_append.1 hw with hw | hw
      · exact h.writes w hw f hf
      · exact h.memory t.client f (hnew _ _ (mem_newWrites.1 hw).2 f hf)
    · rcases happ c' f hf with hf | ⟨-, hf⟩
      · exact h.memory c' f hf
      · exact h.tasks t (List.mem_of_getElem? ht) f hf
  | @apply i w hw hfirst =>
    have htree : (s.applied i w).tree.All (C.Copied K) :=
      Tree.All.apply (mergeable_copied hm) (fun l v hv hl => h.tree l v hl hv)
        (h.stores w (List.mem_of_getElem? hw))
    refine ⟨fun l v hl hv => htree l v hv hl,
      fun w' hw' => h.writes w' (List.mem_of_mem_eraseIdx hw'), fun t ht f hf => ?_, h.memory⟩
    rcases List.mem_append.1 ht with ht | ht
    · exact h.tasks t ht f hf
    · rcases List.mem_append.1 ht with ht | ht
      · rcases List.mem_append.1 ht with ht | ht
        · obtain ⟨o, -, l, v, k, -, -, -, rfl⟩ := mem_childEvents.1 ht
          exact hf.elim
        · obtain ⟨o, -, -, rfl⟩ := mem_valueEvents.1 ht
          cases hv : (w.op.apply s.tree).lookup o.loc with
          | none =>
            rw [hv] at hf
            exact hf.elim
          | some v =>
            rw [hv] at hf
            exact stated_of_copied htree (fun f hf => hvisible' f (.inl hf)) _ v hv f hf
      · obtain ⟨cb, -, rfl⟩ := mem_ack.1 ht
        exact hf.elim
  | @reject i w hw hfirst =>
    refine ⟨h.tree, fun w' hw' => h.writes w' (List.mem_of_mem_eraseIdx hw'), fun t ht f hf => ?_,
      h.memory⟩
    rcases List.mem_append.1 ht with ht | ht
    · exact h.tasks t ht f hf
    · obtain ⟨cb, -, rfl⟩ := mem_ack.1 ht
      exact hf.elim
  | @serve i c a ok ha =>
    refine ⟨h.tree, h.writes, fun t ht f hf => ?_, h.memory⟩
    rcases List.mem_append.1 ht with ht | ht
    · exact h.tasks t ht f hf
    · cases a with
      | childAdded p cb =>
        obtain ⟨k, -, rfl⟩ := List.mem_map.1 ht
        exact hf.elim
      | value l cb | single l cb =>
        cases List.mem_singleton.1 ht
        have hview : (s.view c).All (C.Copied K) :=
          all_view (mergeable_copied hm) (fun l v hv hl => h.tree l v hl hv) h.stores
        cases hv : (s.view c).lookup l with
        | none =>
          rw [hv] at hf
          exact hf.elim
        | some v =>
          rw [hv] at hf
          exact stated_of_copied hview (fun f hf => hvisible f (.inr ⟨c, hf⟩)) l v hv f hf
      | putData | downloadURL =>
        cases List.mem_singleton.1 ht
        exact hf.elim
  | @die c =>
    refine ⟨h.tree, fun w hw => h.writes w (List.mem_filter.1 hw).1,
      fun t ht => h.tasks t (List.mem_filter.1 ht).1, fun c' f hf => ?_⟩
    exact h.memory c' f (hcopies.die c c' f rfl hf).2

end Sighted

/-- In every state of a run in which clients copy, whatever was copied was seen at a source. -/
theorem sighted_of_reaches (hm : C.Merges) (hs : Initial s) (htree : s.tree = ∅)
    (happ : ∀ c f, ¬ C.holds s.app c f)
    (hcopies : ∀ t l, Reaches (Realtime.step P) ok s t → ok t l → C.Copies P t l)
    (h : Reaches (Realtime.step P) ok s s') : C.Sighted (C.Seen P ok s s') s' := by
  induction h with
  | refl => exact .initial hs htree happ
  | @tail t u l ht hl hstep ih =>
    have now : Reaches (Realtime.step P) ok t u := Reaches.refl.tail hl hstep
    refine (ih.mono fun f hf => ?_).step hm (hcopies t l ht hl) (transition_of_step hstep)
      (fun f hf => ⟨t, ht, now, hf⟩) fun f hf => ⟨u, ht.tail hl hstep, .refl, hf⟩
    obtain ⟨r, h₁, h₂, hf⟩ := hf
    exact ⟨r, h₁, h₂.trans now, hf⟩

end Held

end Step

end Copying

end Realtime
