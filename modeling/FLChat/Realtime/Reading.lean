import FLChat.Realtime.Pending
import Mathlib.Algebra.BigOperators.Group.List.Lemmas
import Mathlib.Data.List.Perm.Basic
import Mathlib.Tactic.Abel

/-!
# Runs that only read

Where nothing is written, the contents of the database fix the answer to every request, and so what
a request leads to in the end, in whatever order the answers come in. A program says what each
request and each task leads to in a commutative monoid (`Leads`): a request to what its answers lead
to, and a task to what it puts out itself and to what the requests that it issues lead to. Then what
was put out and what everything in flight leads to change by what the presses of the run lead to, and
by nothing else (`output_of_reaches`).
-/

namespace Realtime

variable {Loc Client Cb Blob App Action : Type} [Schema Loc] {M : Type} [AddCommMonoid M]

/-- The commands only read, with callbacks of the kind `reads`. -/
def OnlyAsk (reads : Cb → Prop) (cmds : List (Cmd Loc Cb Blob)) : Prop :=
  ∀ cmd ∈ cmds, ∃ a, cmd = .ask a ∧ reads a.cb

/-- Nothing is written to the database `T`, and everything in flight reads. -/
structure OnlyReads (reads : Cb → Prop) (T : Tree Loc)
    (s : State Loc Client Cb Blob App Action) : Prop where
  writes : s.writes = []
  tree : s.tree = T
  asks : ∀ x ∈ s.asks, reads x.2.cb
  tasks : ∀ t ∈ s.tasks, reads t.cb

/-- What the requests among the commands lead to. -/
def ledTo (ask : Client × Ask Loc Cb Blob → M) (c : Client) (cmds : List (Cmd Loc Cb Blob)) : M :=
  ((newAsks c cmds).map ask).sum

/-- What everything in flight leads to. -/
def inFlight (ask : Client × Ask Loc Cb Blob → M) (task : Task Loc Client Cb → M)
    (s : State Loc Client Cb Blob App Action) : M :=
  (s.asks.map ask).sum + (s.tasks.map task).sum

theorem sum_map_eraseIdx {α : Type} {f : α → M} {xs : List α} {i : ℕ} {x : α}
    (h : xs[i]? = some x) : (xs.map f).sum = f x + ((xs.eraseIdx i).map f).sum := by
  obtain ⟨hi, rfl⟩ := List.getElem?_eq_some_iff.1 h
  rw [← ((List.getElem_cons_eraseIdx_perm hi).map f).sum_eq, List.map_cons, List.sum_cons]

theorem newWrites_of_onlyAsk {reads : Cb → Prop} {c : Client} {cmds : List (Cmd Loc Cb Blob)}
    (h : OnlyAsk reads cmds) : newWrites c cmds = [] := by
  refine List.eq_nil_iff_forall_not_mem.2 fun w hw => ?_
  obtain ⟨a, he, -⟩ := h _ (mem_newWrites.1 hw).2
  cases he

theorem OnlyReads.issue {reads : Cb → Prop} {T : Tree Loc}
    {s s' : State Loc Client Cb Blob App Action} (h : OnlyReads reads T s) {c : Client}
    {cmds : List (Cmd Loc Cb Blob)} (hcmds : OnlyAsk reads cmds) (hwrites : s'.writes = s.writes ++ newWrites c cmds)
    (htree : s'.tree = s.tree) (hasks : s'.asks = s.asks ++ newAsks c cmds)
    (htasks : ∀ t ∈ s'.tasks, t ∈ s.tasks) : OnlyReads reads T s' where
  writes := by rw [hwrites, h.writes, newWrites_of_onlyAsk hcmds, List.append_nil]
  tree := htree.trans h.tree
  asks x hx := by
    rw [hasks] at hx
    rcases List.mem_append.1 hx with hx | hx
    · exact h.asks x hx
    · obtain ⟨a, he, hreads⟩ := hcmds _ (mem_newAsks.1 hx).2
      cases he
      exact hreads
  tasks t ht := h.tasks t (htasks t ht)

section Step

variable [DecidableEq Loc] [DecidableEq Client] {P : Program Loc Client Cb Blob App Action}
  {reads : Cb → Prop} {T : Tree Loc} {s s' : State Loc Client Cb Blob App Action}
  {l : Label Client Action}

/-- What each request and each task leads to, over the database `T`. -/
structure Leads (P : Program Loc Client Cb Blob App Action) (reads : Cb → Prop) (T : Tree Loc)
    (ask : Client × Ask Loc Cb Blob → M) (task : Task Loc Client Cb → M) (output : App → M)
    (starts : Event Loc Client Cb Blob Action → M) : Prop where
  press : ∀ {a e app c app' cmds}, P.act a e app = some (c, app', cmds) → OnlyAsk reads cmds →
    output app' + ledTo ask c cmds = output app + starts (.pressed a e)
  issues : ∀ c e cb input app, reads cb → OnlyAsk reads (P.handle c e cb input app).2
  run : ∀ c e cb input app, reads cb → output (P.handle c e cb input app).1 +
    ledTo ask c (P.handle c e cb input app).2 = output app + task ⟨c, cb, input⟩
  serve : ∀ s : State Loc Client Cb Blob App Action, OnlyReads reads T s → ∀ c a ok, reads a.cb →
    ((s.answer c a ok).map task).sum = ask (c, a)
  starts : ∀ ev, (∀ a e, ev ≠ .pressed a e) → starts ev = 0

/-- A press of this class only reads, and no process ends. -/
def Browses (P : Program Loc Client Cb Blob App Action) (reads : Cb → Prop)
    (s : State Loc Client Cb Blob App Action) : Label Client Action → Prop
  | .press a e => ∀ c app cmds, P.act a e s.app = some (c, app, cmds) → OnlyAsk reads cmds
  | .die _ => False
  | _ => True

instance {reads : Cb → Prop} [DecidablePred reads] :
    DecidablePred fun cmd : Cmd Loc Cb Blob => ∃ a, cmd = .ask a ∧ reads a.cb
  | .ask a => decidable_of_iff (reads a.cb) ⟨fun h => ⟨a, rfl, h⟩, fun ⟨_, he, h⟩ => by
      cases he
      exact h⟩
  | .write .. => isFalse fun ⟨_, he, _⟩ => by cases he

instance [DecidablePred reads] (cmds : List (Cmd Loc Cb Blob)) : Decidable (OnlyAsk reads cmds) :=
  inferInstanceAs (Decidable (∀ cmd ∈ cmds, ∃ a, cmd = .ask a ∧ reads a.cb))

instance [DecidablePred reads] (s : State Loc Client Cb Blob App Action) :
    DecidablePred (Browses P reads s)
  | .press a e => decidable_of_iff (∀ x ∈ P.act a e s.app, OnlyAsk reads x.2.2)
      ⟨fun h c app cmds hact => h (c, app, cmds) hact, fun h x hx => h x.1 x.2.1 x.2.2 hx⟩
  | .run .. | .commit .. | .serve .. => isTrue trivial
  | .die _ => isFalse id

namespace OnlyReads

theorem view (h : OnlyReads reads T s) (c : Client) : s.view c = T := by
  rw [State.view, h.writes, h.tree]
  rfl

/-- A step of a run that only reads, and what it changes. -/
theorem step {ask : Client × Ask Loc Cb Blob → M} {task : Task Loc Client Cb → M}
    {output : App → M} {starts : Event Loc Client Cb Blob Action → M}
    (h : OnlyReads reads T s) (hleads : Leads P reads T ask task output starts)
    (hl : Browses P reads s l) (hs : Transition P s l s') {ev : Event Loc Client Cb Blob Action}
    (hlog : s'.log = ev :: s.log) : OnlyReads reads T s' ∧
      output s'.app + inFlight ask task s' = output s.app + inFlight ask task s + starts ev := by
  cases hs with
  | @press a e c app cmds hkey hact =>
    obtain rfl := (List.cons.inj hlog).1
    have hcmds := hl c app cmds hact
    refine ⟨h.issue hcmds rfl rfl rfl fun _ => id, ?_⟩
    have hpress := hleads.press hact hcmds
    simp only [inFlight, State.pressed_asks, State.pressed_tasks, State.pressed_app, List.map_append,
      List.sum_append]
    calc _ = output app + ledTo ask c cmds + ((s.asks.map ask).sum + (s.tasks.map task).sum) := by
          unfold ledTo; abel
      _ = _ := by rw [hpress]; abel
  | @run i e t app cmds hkey ht hrun =>
    obtain rfl := (List.cons.inj hlog).1
    have hreads := h.tasks t (List.mem_of_getElem? ht)
    have hcmds := hleads.issues t.client e t.cb t.input s.app hreads
    have htask := hleads.run t.client e t.cb t.input s.app hreads
    rw [hrun] at hcmds htask
    refine ⟨h.issue hcmds rfl rfl rfl fun _ => List.mem_of_mem_eraseIdx, ?_⟩
    rw [hleads.starts _ (by simp), add_zero]
    simp only [inFlight, State.ran_asks, State.ran_tasks, State.ran_app, List.map_append,
      List.sum_append]
    calc _ = output app + ledTo ask t.client cmds +
          ((s.asks.map ask).sum + ((s.tasks.eraseIdx i).map task).sum) := by
          unfold ledTo; abel
      _ = _ := by rw [htask, sum_map_eraseIdx ht]; abel
  | apply hw | reject hw =>
    rw [h.writes] at hw
    cases hw
  | @serve i c a ok ha =>
    obtain rfl := (List.cons.inj hlog).1
    have hreads := h.asks _ (List.mem_of_getElem? ha)
    have hserve := hleads.serve s h c a ok hreads
    constructor
    · refine ⟨h.writes, h.tree, fun x hx => h.asks x (List.mem_of_mem_eraseIdx hx), fun t ht => ?_⟩
      rcases List.mem_append.1 ht with ht | ht
      · exact h.tasks t ht
      · rw [(mem_answer ht).2]
        exact hreads
    · rw [hleads.starts _ (by simp), add_zero]
      simp only [inFlight, State.served_asks, State.served_tasks, State.served_app, List.map_append,
        List.sum_append, hserve]
      rw [sum_map_eraseIdx ha]
      abel
  | die => exact hl.elim

end OnlyReads

/-- A run that only reads puts out what its presses lead to, less what is still in flight. -/
theorem output_of_reaches {ask : Client × Ask Loc Cb Blob → M} {task : Task Loc Client Cb → M}
    {output : App → M} {starts : Event Loc Client Cb Blob Action → M}
    (hs : OnlyReads reads T s) (hleads : Leads P reads T ask task output starts)
    (h : Reaches (Realtime.step P) (Browses P reads) s s') : OnlyReads reads T s' ∧
      output s'.app + inFlight ask task s' =
        output s.app + inFlight ask task s + ((since s s').map starts).sum := by
  refine h.invariant_of_reached (I := fun s' => OnlyReads reads T s' ∧
    output s'.app + inFlight ask task s' =
      output s.app + inFlight ask task s + ((since s s').map starts).sum)
    ⟨hs, by simp⟩ fun {t l u} ht ih hl hstep => ?_
  obtain ⟨ev, hlog, hsince⟩ := since_step ht (transition_of_step hstep)
  obtain ⟨hreads, hsum⟩ := ih.1.step hleads hl (transition_of_step hstep) hlog
  refine ⟨hreads, ?_⟩
  rw [hsum, ih.2, hsince, List.map_cons, List.sum_cons]
  abel

end Step

end Realtime
