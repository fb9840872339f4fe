import FLChat.Realtime.Pending

/-!
# Reads that are answered in order

A channel is a kind of single reads of one client, recognised by their callbacks, each with the
value it was asked with. If the server answers the reads of a channel in the order in which they
were issued, and the client runs the replies in the order of the answers, then what was asked is
what has been received, followed by the replies that are due, followed by the reads that wait
(`Channel.sent_of_reaches`).
-/

namespace Realtime

variable {Loc Client Cb Blob App Action α : Type} [Schema Loc] [DecidableEq Client]

/-- The single reads of `loc` by `client` with the callbacks that `read` knows. -/
structure Channel (Loc Client Cb α : Type) where
  client : Client
  loc : Loc
  read : Cb → Option α

namespace Channel

variable (ch : Channel Loc Client Cb α)

/-- What a callback of the channel was asked with. -/
def tag (c : Client) (cb : Cb) : Option α := if c = ch.client then ch.read cb else none

/-- The reads that wait for their answers. -/
def waiting (s : State Loc Client Cb Blob App Action) : List α :=
  s.asks.filterMap fun x => ch.tag x.1 x.2.cb

/-- The replies that are due. -/
def replies (s : State Loc Client Cb Blob App Action) : List α :=
  s.tasks.filterMap fun t => ch.tag t.client t.cb

/-- The reply that an event runs. -/
def receives : Event Loc Client Cb Blob Action → Option α
  | .ran t _ => ch.tag t.client t.cb
  | _ => none

def received (log : List (Event Loc Client Cb Blob Action)) : List α :=
  log.reverse.filterMap ch.receives

/-- The reads that the events of the log issue, when each of them issues those of `source`. -/
def sent (source : Event Loc Client Cb Blob Action → List α)
    (log : List (Event Loc Client Cb Blob Action)) : List α := log.reverse.flatMap source

/-- The commands issue the reads `xs`, and use the callbacks of the channel for nothing else. -/
structure Reads (c : Client) (cmds : List (Cmd Loc Cb Blob)) (xs : List α) : Prop where
  single : ∀ cmd ∈ cmds, ∀ cb ∈ cmd.completion, ch.tag c cb ≠ none → cmd = .ask (.single ch.loc cb)
  reads : (newAsks c cmds).filterMap (fun x => ch.tag x.1 x.2.cb) = xs

/-- The events of the program issue the reads of `source`. -/
structure Serves (P : Program Loc Client Cb Blob App Action)
    (source : Event Loc Client Cb Blob Action → List α) : Prop where
  press : ∀ {a e app c app' cmds}, P.act a e app = some (c, app', cmds) →
    ch.Reads c cmds (source (.pressed a e))
  run : ∀ {t e app app' cmds}, P.handle t.client e t.cb t.input app = (app', cmds) →
    ch.Reads t.client cmds (source (.ran t e))
  resolved : ∀ c op ok, source (.resolved c op ok) = []
  served : ∀ c a ok, source (.served c a ok) = []
  died : ∀ c, source (.died c) = []

/-- Only single reads of the channel's location have its callbacks. -/
structure Reserved (s : State Loc Client Cb Blob App Action) : Prop where
  writes : ∀ w ∈ s.writes, ∀ cb ∈ w.completion, ch.tag w.client cb = none
  asks : ∀ x ∈ s.asks, ch.tag x.1 x.2.cb ≠ none → x.2 = .single ch.loc x.2.cb
  childObs : ∀ o ∈ s.childObs, ch.tag o.client o.cb = none
  valueObs : ∀ o ∈ s.valueObs, ch.tag o.client o.cb = none
  tasks : ∀ t ∈ s.tasks, ch.tag t.client t.cb ≠ none → ∃ v, t.input = .value ch.loc v

/-- The reads are answered in order, the replies are run in order, and the process goes on. -/
def InOrder (s : State Loc Client Cb Blob App Action) : Label Client Action → Prop
  | .serve i _ => ∀ x ∈ s.asks[i]?, ch.tag x.1 x.2.cb ≠ none →
    ∀ y ∈ s.asks.take i, ch.tag y.1 y.2.cb = none
  | .run i _ => ∀ t ∈ s.tasks[i]?, ch.tag t.client t.cb ≠ none →
    ∀ t' ∈ s.tasks.take i, ch.tag t'.client t'.cb = none
  | .die c => c ≠ ch.client
  | .press .. | .commit .. => True

instance (s : State Loc Client Cb Blob App Action) : DecidablePred (ch.InOrder s)
  | .serve i _ => inferInstanceAs (Decidable (∀ x ∈ s.asks[i]?, _))
  | .run i _ => inferInstanceAs (Decidable (∀ t ∈ s.tasks[i]?, _))
  | .die c => inferInstanceAs (Decidable (c ≠ ch.client))
  | .press .. | .commit .. => isTrue trivial

end Channel

/-! ## Queues -/

/-- Taking the first of its kind out of a list. -/
theorem filterMap_eraseIdx_of_first {β γ : Type} {f : β → Option γ} {xs : List β} {i : ℕ} {x : β}
    (hx : xs[i]? = some x) (hfirst : ∀ y ∈ xs.take i, f y = none) :
    xs.filterMap f = (f x).toList ++ (xs.eraseIdx i).filterMap f := by
  induction xs generalizing i with
  | nil => cases hx
  | cons y ys ih =>
    cases i with
    | zero =>
      obtain rfl : y = x := Option.some.inj hx
      cases h : f y <;> simp [h]
    | succ i =>
      rw [List.take_succ_cons, List.forall_mem_cons] at hfirst
      simp [hfirst.1, ih hx hfirst.2]

/-- Taking another kind out of a list. -/
theorem filterMap_eraseIdx_of_none {β γ : Type} {f : β → Option γ} {xs : List β} {i : ℕ} {x : β}
    (hx : xs[i]? = some x) (hf : f x = none) : (xs.eraseIdx i).filterMap f = xs.filterMap f := by
  induction xs generalizing i with
  | nil => cases hx
  | cons y ys ih =>
    cases i with
    | zero =>
      obtain rfl : y = x := Option.some.inj hx
      simp [hf]
    | succ i => simp only [List.eraseIdx_cons_succ, List.filterMap_cons, ih hx]

theorem filterMap_filter_of_none {β γ : Type} {f : β → Option γ} {p : β → Bool} {xs : List β}
    (h : ∀ x ∈ xs, p x = false → f x = none) : (xs.filter p).filterMap f = xs.filterMap f := by
  induction xs with
  | nil => rfl
  | cons x xs ih =>
    rw [List.forall_mem_cons] at h
    cases hp : p x with
    | true => simp only [List.filter_cons, hp, ↓reduceIte, List.filterMap_cons, ih h.2]
    | false => simp [hp, h.1 hp, ih h.2]

namespace Channel

section Step

variable [DecidableEq Loc] {ch : Channel Loc Client Cb α}
  {P : Program Loc Client Cb Blob App Action}
  {source : Event Loc Client Cb Blob Action → List α}
  {s s' : State Loc Client Cb Blob App Action} {l : Label Client Action}

omit [DecidableEq Loc] in
theorem received_cons (ev : Event Loc Client Cb Blob Action)
    (log : List (Event Loc Client Cb Blob Action)) :
    ch.received (ev :: log) = ch.received log ++ (ch.receives ev).toList := by
  unfold received
  rw [List.reverse_cons, List.filterMap_append]
  cases h : ch.receives ev <;> simp [h]

omit [DecidableEq Client] [DecidableEq Loc] in
theorem sent_cons (ev : Event Loc Client Cb Blob Action)
    (log : List (Event Loc Client Cb Blob Action)) :
    sent source (ev :: log) = sent source log ++ source ev := by
  simp [sent]

/-- The answers to a request of the channel are one reply, and to another request none. -/
theorem replies_answer (h : ch.Reserved s) {c : Client} {a : Ask Loc Cb Blob} {ok : Bool}
    (ha : (c, a) ∈ s.asks) :
    (s.answer c a ok).filterMap (fun t => ch.tag t.client t.cb) = (ch.tag c a.cb).toList := by
  by_cases htag : ch.tag c a.cb = none
  · rw [htag]
    refine List.filterMap_eq_nil_iff.2 fun t ht => ?_
    obtain ⟨rfl, hcb⟩ := mem_answer ht
    rw [hcb]
    exact htag
  · obtain ⟨cb, rfl⟩ : ∃ cb, a = .single ch.loc cb := ⟨_, h.asks _ ha htag⟩
    obtain ⟨x, hx⟩ := Option.ne_none_iff_exists'.1 htag
    have hx' : ch.tag c cb = some x := hx
    simp [State.answer, Ask.cb, hx']

omit [DecidableEq Loc] in
/-- Commands of the channel are single reads, and a write has none of its callbacks. -/
theorem Reads.writes {c : Client} {cmds : List (Cmd Loc Cb Blob)} {xs : List α}
    (h : ch.Reads c cmds xs) {w : Write Loc Client Cb} (hw : w ∈ newWrites c cmds) :
    ∀ cb ∈ w.completion, ch.tag w.client cb = none := by
  obtain ⟨rfl, hcmd⟩ := mem_newWrites.1 hw
  intro cb hcb
  by_contra htag
  cases h.single _ hcmd cb hcb htag

omit [DecidableEq Loc] in
theorem Reads.asks {c : Client} {cmds : List (Cmd Loc Cb Blob)} {xs : List α}
    (h : ch.Reads c cmds xs) {x : Client × Ask Loc Cb Blob} (hx : x ∈ newAsks c cmds)
    (htag : ch.tag x.1 x.2.cb ≠ none) : x.2 = .single ch.loc x.2.cb := by
  obtain ⟨hc, hcmd⟩ := mem_newAsks.1 hx
  rw [hc] at htag
  exact Cmd.ask.inj (h.single _ hcmd _ rfl htag)

omit [DecidableEq Loc] in
/-- A completion is not a reply of the channel. -/
theorem Reserved.tag_ack (h : ch.Reserved s) {w : Write Loc Client Cb} (hw : w ∈ s.writes)
    {ok : Bool} {t : Task Loc Client Cb} (ht : t ∈ w.ack ok) : ch.tag t.client t.cb = none := by
  obtain ⟨cb, hcb, rfl⟩ := mem_ack.1 ht
  exact h.writes w hw cb hcb

/-- Nor is an event of an observer. -/
theorem Reserved.tag_applied (h : ch.Reserved s) {w : Write Loc Client Cb} (hw : w ∈ s.writes)
    {t : Task Loc Client Cb} (ht : t ∈ s.childEvents w.op ++ s.valueEvents w.op ++ w.ack true) :
    ch.tag t.client t.cb = none := by
  rcases List.mem_append.1 ht with ht | ht
  · rcases List.mem_append.1 ht with ht | ht
    · obtain ⟨o, ho, l, v, k, -, -, -, rfl⟩ := mem_childEvents.1 ht
      exact h.childObs o ho
    · obtain ⟨o, ho, -, rfl⟩ := mem_valueEvents.1 ht
      exact h.valueObs o ho
  · exact h.tag_ack hw ht

/-- A step keeps the callbacks of the channel for its reads. -/
theorem Reserved.step (h : ch.Reserved s) (hP : ch.Serves P source) (hs : Transition P s l s') :
    ch.Reserved s' := by
  have issue : ∀ {c cmds xs}, ch.Reads c cmds xs →
      (∀ w ∈ s.writes ++ newWrites c cmds, ∀ cb ∈ w.completion, ch.tag w.client cb = none) ∧
      ∀ x ∈ s.asks ++ newAsks c cmds, ch.tag x.1 x.2.cb ≠ none → x.2 = .single ch.loc x.2.cb := by
    intro c cmds xs hreads
    constructor
    · intro w hw
      rcases List.mem_append.1 hw with hw | hw
      · exact h.writes w hw
      · exact hreads.writes hw
    · intro x hx htag
      rcases List.mem_append.1 hx with hx | hx
      · exact h.asks x hx htag
      · exact hreads.asks hx htag
  cases hs with
  | press _ hact =>
    obtain ⟨hwrites, hasks⟩ := issue (hP.press hact)
    exact ⟨hwrites, hasks, h.childObs, h.valueObs, h.tasks⟩
  | run _ _ hrun =>
    obtain ⟨hwrites, hasks⟩ := issue (hP.run hrun)
    exact ⟨hwrites, hasks, h.childObs, h.valueObs,
      fun t' ht' => h.tasks t' (List.mem_of_mem_eraseIdx ht')⟩
  | @apply i w hw _ =>
    refine ⟨fun w' hw' => h.writes w' (List.mem_of_mem_eraseIdx hw'), h.asks, h.childObs,
      h.valueObs, fun t ht htag => ?_⟩
    rcases List.mem_append.1 ht with ht | ht
    · exact h.tasks t ht htag
    · exact absurd (h.tag_applied (List.mem_of_getElem? hw) ht) htag
  | @reject i w hw _ =>
    refine ⟨fun w' hw' => h.writes w' (List.mem_of_mem_eraseIdx hw'), h.asks, h.childObs,
      h.valueObs, fun t ht htag => ?_⟩
    rcases List.mem_append.1 ht with ht | ht
    · exact h.tasks t ht htag
    · exact absurd (h.tag_ack (List.mem_of_getElem? hw) ht) htag
  | @serve i c a ok ha =>
    have hmem := List.mem_of_getElem? ha
    refine ⟨h.writes, fun x hx => h.asks x (List.mem_of_mem_eraseIdx hx), fun o ho => ?_,
      fun o ho => ?_, fun t ht htag => ?_⟩
    · rcases List.mem_append.1 ho with ho | ho
      · exact h.childObs o ho
      · obtain ⟨hc, rfl⟩ := mem_childObserver.1 ho
        by_contra htag
        rw [hc] at htag
        cases h.asks _ hmem htag
    · rcases List.mem_append.1 ho with ho | ho
      · exact h.valueObs o ho
      · obtain ⟨hc, rfl⟩ := mem_valueObserver.1 ho
        by_contra htag
        rw [hc] at htag
        cases h.asks _ hmem htag
    · rcases List.mem_append.1 ht with ht | ht
      · exact h.tasks t ht htag
      · obtain ⟨hc, hcb⟩ := mem_answer ht
        rw [hc, hcb] at htag
        obtain ⟨cb, rfl⟩ : ∃ cb, a = .single ch.loc cb := ⟨_, h.asks _ hmem htag⟩
        cases List.mem_singleton.1 ht
        exact ⟨_, rfl⟩
  | die =>
    exact ⟨fun w hw => h.writes w (List.mem_filter.1 hw).1,
      fun x hx => h.asks x (List.mem_filter.1 hx).1,
      fun o ho => h.childObs o (List.mem_filter.1 ho).1,
      fun o ho => h.valueObs o (List.mem_filter.1 ho).1,
      fun t ht => h.tasks t (List.mem_filter.1 ht).1⟩

/-! ## What is in flight -/

/-- What was asked has been received, is due or waits, in this order. -/
def Sequence (ch : Channel Loc Client Cb α) (source : Event Loc Client Cb Blob Action → List α)
    (log : List (Event Loc Client Cb Blob Action)) (s : State Loc Client Cb Blob App Action) :
    Prop :=
  sent source log = ch.received log ++ ch.replies s ++ ch.waiting s

theorem Sequence.step {log : List (Event Loc Client Cb Blob Action)}
    {ev : Event Loc Client Cb Blob Action} (h : ch.Sequence source log s) (hres : ch.Reserved s)
    (hP : ch.Serves P source) (hl : ch.InOrder s l) (hs : Transition P s l s')
    (hlog : s'.log = ev :: s.log) : ch.Sequence source (ev :: log) s' := by
  unfold Sequence at h ⊢
  rw [sent_cons, received_cons, h]
  cases hs with
  | @press a e c app cmds _ hact =>
    obtain rfl := (List.cons.inj hlog).1
    rw [← (hP.press (e := e) hact).reads]
    simp [waiting, replies, receives, List.append_assoc]
  | @run i e t app cmds _ ht hrun =>
    obtain rfl := (List.cons.inj hlog).1
    rw [← (hP.run (e := e) hrun).reads]
    have hreplies : ch.replies s = (ch.tag t.client t.cb).toList ++
        (s.tasks.eraseIdx i).filterMap fun t => ch.tag t.client t.cb := by
      by_cases htag : ch.tag t.client t.cb = none
      · rw [filterMap_eraseIdx_of_none ht htag, htag]
        rfl
      · exact filterMap_eraseIdx_of_first ht (hl t ht htag)
    rw [hreplies]
    simp [waiting, replies, receives]
  | @apply i w hw _ =>
    obtain rfl := (List.cons.inj hlog).1
    have hnew : (s.childEvents w.op ++ s.valueEvents w.op ++ w.ack true).filterMap
        (fun t => ch.tag t.client t.cb) = [] :=
      List.filterMap_eq_nil_iff.2 fun t ht => hres.tag_applied (List.mem_of_getElem? hw) ht
    have hreplies : ch.replies (s.applied i w) = ch.replies s := by
      rw [replies, State.applied_tasks, List.filterMap_append, hnew, List.append_nil]
      rfl
    rw [hP.resolved, hreplies]
    simp [waiting, receives]
  | @reject i w hw _ =>
    obtain rfl := (List.cons.inj hlog).1
    have hnew : (w.ack false).filterMap (fun t => ch.tag t.client t.cb) = [] :=
      List.filterMap_eq_nil_iff.2 fun t ht => hres.tag_ack (List.mem_of_getElem? hw) ht
    have hreplies : ch.replies (s.rejected i w) = ch.replies s := by
      rw [replies, State.rejected_tasks, List.filterMap_append, hnew, List.append_nil]
      rfl
    rw [hP.resolved, hreplies]
    simp [waiting, receives]
  | @serve i c a ok ha =>
    obtain rfl := (List.cons.inj hlog).1
    have hwaiting : ch.waiting s = (ch.tag c a.cb).toList ++
        (s.asks.eraseIdx i).filterMap fun x => ch.tag x.1 x.2.cb := by
      by_cases htag : ch.tag c a.cb = none
      · rw [filterMap_eraseIdx_of_none ha htag, htag]
        rfl
      · exact filterMap_eraseIdx_of_first ha (hl _ ha htag)
    have hreplies : ch.replies (s.served i c a ok) = ch.replies s ++ (ch.tag c a.cb).toList := by
      rw [replies, State.served_tasks, List.filterMap_append,
        replies_answer hres (List.mem_of_getElem? ha)]
      rfl
    rw [hP.served, hreplies, hwaiting]
    simp [waiting, receives]
  | @die c =>
    obtain rfl := (List.cons.inj hlog).1
    have other : ∀ c' cb, decide (c' ≠ c) = false → ch.tag c' cb = none := by
      intro c' cb hc
      obtain rfl : c' = c := by simpa using hc
      exact if_neg hl
    have hreplies : ch.replies (s.died c (P.die c s.app)) = ch.replies s :=
      filterMap_filter_of_none fun t _ => other t.client t.cb
    have hwaiting : ch.waiting (s.died c (P.die c s.app)) = ch.waiting s :=
      filterMap_filter_of_none fun x _ => other x.1 x.2.cb
    rw [hP.died, hreplies, hwaiting]
    simp [receives]

/-- In a run that answers a channel in order nothing of it is lost, repeated or overtaken. -/
theorem sent_of_reaches {ok : State Loc Client Cb Blob App Action → Label Client Action → Prop}
    {s₀ : State Loc Client Cb Blob App Action} (hP : ch.Serves P source) (hres : ch.Reserved s₀)
    (hreplies : ch.replies s₀ = []) (hwaiting : ch.waiting s₀ = [])
    (hok : ∀ s l, ok s l → ch.InOrder s l) (h : Reaches (Realtime.step P) ok s₀ s) :
    ch.Reserved s ∧ ch.Sequence source (since s₀ s) s := by
  refine h.invariant_of_reached (I := fun s => ch.Reserved s ∧ ch.Sequence source (since s₀ s) s)
    ⟨hres, ?_⟩ fun {t l u} ht ih hl hstep => ?_
  · rw [since_self, Sequence, hreplies, hwaiting]
    rfl
  · have hs := transition_of_step hstep
    obtain ⟨ev, hlog, hsince⟩ := since_step ht hs
    exact ⟨ih.1.step hP hs, hsince ▸ ih.2.step ih.1 hP (hok t l hl) hs hlog⟩

end Step

end Channel

end Realtime
