import FLChat.Realtime.Pending
import Mathlib.Data.Fintype.EquivFin
import Mathlib.Data.Multiset.DershowitzManna
import Mathlib.Tactic.Abel

/-!
# Work comes to an end

As long as nobody presses anything, the system only goes on with what is under way: the server takes
writes and serves requests, and callbacks run and issue more (`Works`). One piece of work may leave
any number of others behind, as a write wakes every observer it concerns and an observer that is
attached is told about every child there is. It comes to an end all the same where the callbacks can
be ranked so that each issues nothing but commands of a lower rank (`Ranking.Descends`): a step then
replaces one piece of work by pieces of lower ranks.

So everything that holds whenever nothing is in flight does not only hold if that should happen, but
is where every run ends up that goes on as long as it can (`Inevitably`), without any assumption on
the order in which the server and the devices work.
-/

namespace Realtime

/-! ## What every run comes to -/

/-- Every run of `next` from `s` comes to an end if it goes on as long as it can, and it ends in a
state with `Q`. -/
inductive Inevitably {S : Type} (next : S → S → Prop) (Q : S → Prop) : S → Prop
  | intro {s : S} (onward : ∀ t, next s t → Inevitably next Q t)
    (stuck : (∀ t, ¬ next s t) → Q s) : Inevitably next Q s

namespace Inevitably

variable {S : Type} {next : S → S → Prop} {Q : S → Prop} {s : S}

/-- Without an endless run, it is enough to look at the ends. -/
theorem of_wellFounded (hwf : WellFounded fun t s => next s t)
    (hend : ∀ t, Relation.ReflTransGen next s t → (∀ u, ¬ next t u) → Q t) :
    Inevitably next Q s := by
  induction s using hwf.induction with
  | h s ih =>
    exact ⟨fun t ht => ih t ht fun u hu => hend u (.head ht hu), hend s .refl⟩

/-- The run of any scheduler gets there. -/
theorem exists_of_scheduled (h : Inevitably next Q s) {run : ℕ → S} (hstart : run 0 = s)
    (hgoes : ∀ n, (∃ t, next (run n) t) → next (run n) (run (n + 1))) : ∃ n, Q (run n) := by
  induction h generalizing run with
  | @intro s _ hstuck ih =>
    subst hstart
    by_cases hs : ∃ t, next (run 0) t
    · obtain ⟨n, hn⟩ := @ih _ (hgoes 0 hs) (fun n => run (n + 1)) rfl fun n => hgoes (n + 1)
      exact ⟨n + 1, hn⟩
    · exact ⟨0, hstuck fun t ht => hs ⟨t, ht⟩⟩

end Inevitably

variable {Loc Client Cb Blob App Action : Type} [Schema Loc]

/-! ## Ranks -/

/-- What a callback waits for. -/
inductive Kind
  | acked
  | childAdded
  | value
  | stored
  | url
  deriving DecidableEq

def Input.kind : Input Loc → Kind
  | .acked _ => .acked
  | .childAdded _ => .childAdded
  | .value .. => .value
  | .stored _ => .stored
  | .url _ => .url

def Ask.kind : Ask Loc Cb Blob → Kind
  | .childAdded .. => .childAdded
  | .value .. | .single .. => .value
  | .putData .. => .stored
  | .downloadURL .. => .url

/-- How much the callbacks can lead to, with a bound for all that observe children and one for all
that observe values. -/
structure Ranking (Cb : Type) where
  rank : Kind → Cb → ℕ
  child : ℕ
  value : ℕ
  rank_childAdded_le : ∀ cb, rank .childAdded cb ≤ child
  rank_value_le : ∀ cb, rank .value cb ≤ value

namespace Ranking

def ask (R : Ranking Cb) (a : Ask Loc Cb Blob) : ℕ := R.rank a.kind a.cb + 1

/-- A write may wake any observer, and a removal those of values. -/
def woken (R : Ranking Cb) : Op Loc → ℕ
  | .update .. => max R.child R.value
  | .remove _ => R.value

def write (R : Ranking Cb) (op : Op Loc) (completion : Option Cb) : ℕ :=
  max (R.woken op) (completion.elim 0 (R.rank .acked)) + 1

def cmd (R : Ranking Cb) : Cmd Loc Cb Blob → ℕ
  | .write op completion => R.write op completion
  | .ask a => R.ask a

def task (R : Ranking Cb) (t : Task Loc Client Cb) : ℕ := R.rank t.input.kind t.cb

/-- The ranks of all that is under way. -/
def work (R : Ranking Cb) (s : State Loc Client Cb Blob App Action) : Multiset ℕ :=
  ↑(s.writes.map fun w => R.write w.op w.completion) + ↑(s.asks.map fun x => R.ask x.2) +
    ↑(s.tasks.map R.task)

/-- Each callback issues commands of lower ranks only. -/
def Descends (R : Ranking Cb) (P : Program Loc Client Cb Blob App Action) : Prop :=
  ∀ c e cb input app, ∀ cmd ∈ (P.handle c e cb input app).2, R.cmd cmd < R.rank input.kind cb

end Ranking

/-- The steps that go on with what is under way. -/
def Label.works : Label Client Action → Bool
  | .run .. | .commit .. | .serve .. => true
  | .press .. | .die _ => false

/-- The work of a class of runs. -/
def Works [DecidableEq Loc] [DecidableEq Client] (P : Program Loc Client Cb Blob App Action)
    (ok : State Loc Client Cb Blob App Action → Label Client Action → Prop)
    (s t : State Loc Client Cb Blob App Action) : Prop :=
  ∃ l : Label Client Action, l.works = true ∧ ok s l ∧ step P s l = some t

section Work

variable [DecidableEq Loc] [DecidableEq Client] {P : Program Loc Client Cb Blob App Action}
  {R : Ranking Cb} {s t : State Loc Client Cb Blob App Action} {l : Label Client Action}
  {ok : State Loc Client Cb Blob App Action → Label Client Action → Prop}

/-- A run of work is a run. -/
theorem reaches_of_works (h : Relation.ReflTransGen (Works P ok) s t) :
    Reaches (step P) (fun s l => l.works = true ∧ ok s l) s t := by
  induction h with
  | refl => exact .refl
  | tail _ hstep ih =>
    obtain ⟨l, hl, hok, hstep⟩ := hstep
    exact ih.tail ⟨hl, hok⟩ hstep

/-! ## A step of work -/

/-- A list with one element taken out. -/
theorem coe_map_eraseIdx {α : Type} (f : α → ℕ) {xs : List α} {i : ℕ} {x : α}
    (h : xs[i]? = some x) : (↑(xs.map f) : Multiset ℕ) = f x ::ₘ ↑((xs.eraseIdx i).map f) := by
  obtain ⟨hi, rfl⟩ := List.getElem?_eq_some_iff.1 h
  have hperm := (List.getElem_cons_eraseIdx_perm hi).map f
  rw [List.map_cons] at hperm
  exact (Multiset.coe_eq_coe.2 hperm).symm

omit [DecidableEq Client] in
theorem rank_event_lt {w : Write Loc Client Cb} {t : Task Loc Client Cb}
    (ht : t ∈ s.childEvents w.op ++ s.valueEvents w.op ++ w.ack true) :
    R.task t < R.write w.op w.completion := by
  refine Nat.lt_succ_of_le ?_
  rcases List.mem_append.1 ht with ht | ht
  · rcases List.mem_append.1 ht with ht | ht
    · obtain ⟨o, -, l, v, k, hop, -, -, rfl⟩ := mem_childEvents.1 ht
      rw [hop]
      exact le_max_of_le_left (le_max_of_le_left (R.rank_childAdded_le o.cb))
    · obtain ⟨o, -, -, rfl⟩ := mem_valueEvents.1 ht
      refine le_max_of_le_left ?_
      cases w.op with
      | update => exact le_max_of_le_right (R.rank_value_le o.cb)
      | remove => exact R.rank_value_le o.cb
  · obtain ⟨cb, hcb, rfl⟩ := mem_ack.1 ht
    rw [hcb]
    exact le_max_right _ _

omit [DecidableEq Loc] [DecidableEq Client] in
theorem rank_ack_lt {w : Write Loc Client Cb} {b : Bool} {t : Task Loc Client Cb}
    (ht : t ∈ w.ack b) : R.task t < R.write w.op w.completion := by
  obtain ⟨cb, hcb, rfl⟩ := mem_ack.1 ht
  rw [Ranking.write, hcb]
  exact Nat.lt_succ_of_le (le_max_right _ _)

theorem rank_answer_lt {c : Client} {a : Ask Loc Cb Blob} {b : Bool} {t : Task Loc Client Cb}
    (ht : t ∈ s.answer c a b) : R.task t < R.ask a := by
  refine Nat.lt_succ_of_le (le_of_eq ?_)
  cases a with
  | childAdded p cb =>
    obtain ⟨k, -, rfl⟩ := List.mem_map.1 ht
    rfl
  | value | single | putData | downloadURL =>
    obtain rfl := List.mem_singleton.1 ht
    rfl

/-- One piece of work is replaced by others of lower ranks. -/
theorem work_lt_of_step (hR : R.Descends P) (hs : Transition P s l t) (hl : l.works = true) :
    (R.work t).IsDershowitzMannaLT (R.work s) := by
  suffices h : ∃ r X Y, R.work s = r ::ₘ X ∧ R.work t = X + Y ∧ ∀ y ∈ Y, y < r by
    obtain ⟨r, X, Y, hs, ht, hlt⟩ := h
    refine ⟨X, Y, {r}, Multiset.singleton_ne_zero r, ht, ?_, fun y hy => ⟨r, ?_, hlt y hy⟩⟩
    · rw [hs, ← Multiset.singleton_add, add_comm]
    · exact Multiset.mem_singleton_self r
  cases hs with
  | press | die => cases hl
  | @run i e t app cmds _ ht hrun =>
    refine ⟨R.task t, ↑(s.writes.map fun w => R.write w.op w.completion) +
      ↑(s.asks.map fun x => R.ask x.2) + ↑((s.tasks.eraseIdx i).map R.task),
      ↑((newWrites t.client cmds).map fun w => R.write w.op w.completion) +
        ↑((newAsks t.client cmds).map fun x => R.ask x.2), ?_, ?_, ?_⟩
    · rw [Ranking.work, coe_map_eraseIdx R.task ht, Multiset.add_cons]
    · simp only [Ranking.work, State.ran_writes, State.ran_asks, State.ran_tasks, List.map_append,
        ← Multiset.coe_add]
      abel
    · have hlt : ∀ cmd ∈ cmds, R.cmd cmd < R.task t := by
        have := hR t.client e t.cb t.input s.app
        rwa [hrun] at this
      intro y hy
      rcases Multiset.mem_add.1 hy with hy | hy
      · obtain ⟨w, hw, rfl⟩ := List.mem_map.1 (Multiset.mem_coe.1 hy)
        exact hlt _ (mem_newWrites.1 hw).2
      · obtain ⟨x, hx, rfl⟩ := List.mem_map.1 (Multiset.mem_coe.1 hy)
        exact hlt _ (mem_newAsks.1 hx).2
  | @apply i w hw _ =>
    refine ⟨R.write w.op w.completion,
      ↑((s.writes.eraseIdx i).map fun w => R.write w.op w.completion) +
        ↑(s.asks.map fun x => R.ask x.2) + ↑(s.tasks.map R.task),
      ↑((s.childEvents w.op ++ s.valueEvents w.op ++ w.ack true).map R.task), ?_, ?_, ?_⟩
    · rw [Ranking.work, coe_map_eraseIdx _ hw, Multiset.cons_add, Multiset.cons_add]
    · simp only [Ranking.work, State.applied_writes, State.applied_asks, State.applied_tasks,
        List.map_append, ← Multiset.coe_add]
      abel
    · intro y hy
      obtain ⟨t, ht, rfl⟩ := List.mem_map.1 (Multiset.mem_coe.1 hy)
      exact rank_event_lt ht
  | @reject i w hw _ =>
    refine ⟨R.write w.op w.completion,
      ↑((s.writes.eraseIdx i).map fun w => R.write w.op w.completion) +
        ↑(s.asks.map fun x => R.ask x.2) + ↑(s.tasks.map R.task),
      ↑((w.ack false).map R.task), ?_, ?_, ?_⟩
    · rw [Ranking.work, coe_map_eraseIdx _ hw, Multiset.cons_add, Multiset.cons_add]
    · simp only [Ranking.work, State.rejected_writes, State.rejected_asks, State.rejected_tasks,
        List.map_append, ← Multiset.coe_add]
      abel
    · intro y hy
      obtain ⟨t, ht, rfl⟩ := List.mem_map.1 (Multiset.mem_coe.1 hy)
      exact rank_ack_lt ht
  | @serve i c a b ha =>
    refine ⟨R.ask a, ↑(s.writes.map fun w => R.write w.op w.completion) +
      ↑((s.asks.eraseIdx i).map fun x => R.ask x.2) + ↑(s.tasks.map R.task),
      ↑((s.answer c a b).map R.task), ?_, ?_, ?_⟩
    · rw [Ranking.work, coe_map_eraseIdx _ ha, Multiset.add_cons, Multiset.cons_add]
    · simp only [Ranking.work, State.served_writes, State.served_asks, State.served_tasks,
        List.map_append, ← Multiset.coe_add]
      abel
    · intro y hy
      obtain ⟨t, ht, rfl⟩ := List.mem_map.1 (Multiset.mem_coe.1 hy)
      exact rank_answer_lt ht

/-- There is no endless run of work. -/
theorem wellFounded_works (hR : R.Descends P) : WellFounded fun t s => Works P ok s t := by
  refine Subrelation.wf (r := InvImage Multiset.IsDershowitzMannaLT R.work) ?_
    (InvImage.wf _ Multiset.wellFounded_isDershowitzMannaLT)
  rintro t s ⟨l, hl, -, hstep⟩
  exact work_lt_of_step hR (transition_of_step hstep) hl

/-! ## Where work ends -/

omit [DecidableEq Loc] [DecidableEq Client] in
/-- A key that was not drawn yet. -/
theorem exists_fresh (s : State Loc Client Cb Blob App Action) : ∃ k, k ∉ s.issued :=
  Infinite.exists_notMem_finset s.issued.toFinset |>.imp fun _ h hk => h (List.mem_toFinset.2 hk)

/-- Where something is in flight, the server or a device can go on without a failure. -/
theorem exists_work (hok : ∀ s l, l.works = true → l.succeeds = true → ok s l)
    (hq : ¬ s.Quiescent) : ∃ t, Works P ok s t := by
  by_cases hw : s.writes = []
  · by_cases ha : s.asks = []
    · obtain ⟨t, ts, ht⟩ := List.exists_cons_of_ne_nil fun ht => hq ⟨hw, ha, ht⟩
      obtain ⟨k, hk⟩ := exists_fresh s
      exact ⟨_, .run 0 ⟨k, 0⟩, rfl, hok _ _ rfl rfl,
        step_of_transition (.run hk (by rw [ht]; rfl) rfl)⟩
    · obtain ⟨x, xs, hx⟩ := List.exists_cons_of_ne_nil ha
      exact ⟨_, .serve 0 true, rfl, hok _ _ rfl rfl,
        step_of_transition (.serve (c := x.1) (a := x.2) (by rw [hx]; rfl))⟩
  · obtain ⟨w, ws, hw⟩ := List.exists_cons_of_ne_nil hw
    refine ⟨_, .commit 0 true, rfl, hok _ _ rfl rfl,
      step_of_transition (.apply (w := w) (by rw [hw]; rfl) fun w' hw' => ?_)⟩
    simp at hw'

/-- What holds in every state that work leads to with nothing in flight is where work ends. -/
theorem inevitably_of_quiescent {Q : State Loc Client Cb Blob App Action → Prop}
    (hR : R.Descends P) (hok : ∀ s l, l.works = true → l.succeeds = true → ok s l)
    (h : ∀ t, Reaches (step P) (fun s l => l.works = true ∧ ok s l) s t → t.Quiescent → Q t) :
    Inevitably (Works P ok) Q s := by
  refine .of_wellFounded (wellFounded_works hR) fun t ht hstuck => h t (reaches_of_works ht) ?_
  by_contra hq
  obtain ⟨u, hu⟩ := exists_work hok hq
  exact hstuck u hu

/-- The server rejects no removal. The SDK would bring back what the removal had hidden and tell the
child observers again, and where these remove it once more, that goes on as long as the server
rejects it. -/
def TakesRemovals (s : State Loc Client Cb Blob App Action) : Label Client Action → Prop
  | .commit i ok => ok = true ∨ ∀ w ∈ s.writes[i]?, ∀ p, w.op ≠ .remove p
  | .press .. | .run .. | .serve .. | .die _ => True

/-- Where child observers issue removals, nothing is in flight in the end as long as none of them is
rejected. -/
theorem settles_of_takesRemovals (hR : R.Descends P) (s : State Loc Client Cb Blob App Action) :
    Inevitably (Works P TakesRemovals) State.Quiescent s := by
  refine inevitably_of_quiescent hR (fun s l _ hsucceeds => ?_) fun _ _ hq => hq
  cases l with
  | commit => exact .inl hsucceeds
  | press | run | serve | die => trivial

/-- Whatever the server answers and in whatever order, in the end nothing is in flight. -/
theorem settles (hR : R.Descends P) (s : State Loc Client Cb Blob App Action) :
    Inevitably (Works P fun _ _ => True) State.Quiescent s :=
  inevitably_of_quiescent hR (fun _ _ _ _ => trivial) fun _ _ hq => hq

end Work

end Realtime
