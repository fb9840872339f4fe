import FLChat.Keys.NextPushId
import FLChat.Realtime.Values
import Mathlib.Data.List.Nodup

/-!
# Devices that draw their keys

The model of a program takes the key of a step from outside and asks that it is new. Here the
devices draw it: each process has the statics of `FNextPushId`, which end with the process, and a
step that writes under its key takes the one that `get` returns there (`System.draw`). Where the
clock of a device does not go back and no other device draws the same id (`Timely`), a run of such a
system is a run of the model (`System.reaches`), and what one device writes is, in the order of the
database, in the order of the steps that drew the keys (`System.Drawn.before`).
-/

namespace FLChat.Keys

open Realtime

variable {Loc Client Cb Blob App Action : Type} [Schema Loc]

/-- The commands write a location that carries the key `k`. -/
def writesUnder (key : Loc → Option String) (k : String) (cmds : List (Cmd Loc Cb Blob)) : Bool :=
  cmds.any fun
    | .write (.update l _) _ => key l = some k
    | _ => false

theorem writesUnder_eq_true {key : Loc → Option String} {k : String}
    {cmds : List (Cmd Loc Cb Blob)} :
    writesUnder key k cmds = true ↔ ∃ l v cb, .write (.update l v) cb ∈ cmds ∧ key l = some k := by
  rw [writesUnder, List.any_eq_true]
  constructor
  · rintro ⟨cmd, hcmd, h⟩
    split at h
    · next l v cb => exact ⟨l, v, cb, hcmd, of_decide_eq_true h⟩
    · cases h
  · rintro ⟨l, v, cb, hcmd, h⟩
    exact ⟨_, hcmd, decide_eq_true h⟩

/-- The model, the statics of the process on each device, and what was drawn, most recent first. -/
structure System (Loc Client Cb Blob App Action : Type) [Schema Loc] where
  state : State Loc Client Cb Blob App Action
  statics : Client → Statics
  drawn : List (Client × Statics)

abbrev SystemLabel (Client Action : Type) := Label Client Action × Option Call

namespace System

section Step

variable [DecidableEq Loc] [DecidableEq Client] (P : Program Loc Client Cb Blob App Action)
  (key : Loc → Option String)

/-- The statics and what was drawn after a step of `c` with the key `k`. With a call, `k` is the id
that it returns. Without one, nothing is written under `k`: it only names what the step starts, and
no id has its length. -/
def draw (s : System Loc Client Cb Blob App Action) (c : Client) (k : String)
    (cmds : List (Cmd Loc Cb Blob)) :
    Option Call → Option ((Client → Statics) × List (Client × Statics))
  | some (now, rand) =>
    (get now rand (s.statics c)).bind fun (id, st) =>
      if id = k then some (Function.update s.statics c st, (c, st) :: s.drawn) else none
  | none =>
    if writesUnder key k cmds = true ∨ k ∈ s.state.issued ∨ k.length = 20 then none
    else some (s.statics, s.drawn)

/-- A step. It does not ask that the key is new. -/
def step (s : System Loc Client Cb Blob App Action) :
    SystemLabel Client Action → Option (System Loc Client Cb Blob App Action)
  | (.press a e, call) =>
    (P.act a e s.state.app).bind fun (c, app, cmds) =>
      (s.draw key c e.key cmds call).map fun (statics, drawn) =>
        ⟨s.state.pressed a e c app cmds, statics, drawn⟩
  | (.run i e, call) =>
    s.state.tasks[i]?.bind fun t =>
      let (app, cmds) := P.handle t.client e t.cb t.input s.state.app
      (s.draw key t.client e.key cmds call).map fun (statics, drawn) =>
        ⟨s.state.ran i t e app cmds, statics, drawn⟩
  | (.die c, _) =>
    some ⟨s.state.died c (P.die c s.state.app), Function.update s.statics c .initial, s.drawn⟩
  | (.commit i ok, _) =>
    (Realtime.step P s.state (.commit i ok)).map fun state => ⟨state, s.statics, s.drawn⟩
  | (.serve i ok, _) =>
    (Realtime.step P s.state (.serve i ok)).map fun state => ⟨state, s.statics, s.drawn⟩

/-- The device on which a press or a callback runs, and its key. -/
def actor (s : System Loc Client Cb Blob App Action) :
    Label Client Action → Option (Client × String)
  | .press a e => (P.act a e s.state.app).map fun x => (x.1, e.key)
  | .run i e => s.state.tasks[i]?.map fun t => (t.client, e.key)
  | _ => none

/-- The clock of a device does not go back, and goes on before a new process draws. No two devices
draw one id. -/
def Timely (s : System Loc Client Cb Blob App Action) : SystemLabel Client Action → Prop
  | (l, some (now, _)) => ∀ x ∈ s.actor P l, 0 < now ∧ now < 64 ^ 8 ∧ ∀ d ∈ s.drawn,
    if d.1 = x.1 then
      d.2.lastPushTime ≤ now ∧ (d.2.lastPushTime = now → (s.statics x.1).lastPushTime = now)
    else d.2.id ≠ x.2
  | (_, none) => True

instance (s : System Loc Client Cb Blob App Action) : DecidablePred (s.Timely P)
  | (l, some (now, _)) => inferInstanceAs (Decidable (∀ x ∈ s.actor P l,
      0 < now ∧ now < 64 ^ 8 ∧ ∀ d ∈ s.drawn,
        if d.1 = x.1 then
          d.2.lastPushTime ≤ now ∧ (d.2.lastPushTime = now → (s.statics x.1).lastPushTime = now)
        else d.2.id ≠ x.2))
  | (_, none) => isTrue trivial

/-- What each step can do. -/
inductive Moves (s : System Loc Client Cb Blob App Action) :
    SystemLabel Client Action → System Loc Client Cb Blob App Action → Prop
  | press {a e c app cmds call statics drawn}
    (hact : P.act a e s.state.app = some (c, app, cmds))
    (hdraw : s.draw key c e.key cmds call = some (statics, drawn)) :
    Moves s (.press a e, call) ⟨s.state.pressed a e c app cmds, statics, drawn⟩
  | run {i e t app cmds call statics drawn} (ht : s.state.tasks[i]? = some t)
    (hrun : P.handle t.client e t.cb t.input s.state.app = (app, cmds))
    (hdraw : s.draw key t.client e.key cmds call = some (statics, drawn)) :
    Moves s (.run i e, call) ⟨s.state.ran i t e app cmds, statics, drawn⟩
  | die {c call} : Moves s (.die c, call)
      ⟨s.state.died c (P.die c s.state.app), Function.update s.statics c .initial, s.drawn⟩
  | commit {i ok call state} (h : Realtime.step P s.state (.commit i ok) = some state) :
    Moves s (.commit i ok, call) ⟨state, s.statics, s.drawn⟩
  | serve {i ok call state} (h : Realtime.step P s.state (.serve i ok) = some state) :
    Moves s (.serve i ok, call) ⟨state, s.statics, s.drawn⟩

variable {P key} {s s' : System Loc Client Cb Blob App Action} {l : SystemLabel Client Action}

theorem moves_of_step (h : s.step P key l = some s') : Moves P key s l s' := by
  obtain ⟨l, call⟩ := l
  cases l with
  | press a e =>
    obtain ⟨⟨c, app, cmds⟩, hact, h⟩ := Option.bind_eq_some_iff.1 h
    obtain ⟨⟨statics, drawn⟩, hdraw, rfl⟩ := Option.map_eq_some_iff.1 h
    exact .press hact hdraw
  | run i e =>
    obtain ⟨t, ht, h⟩ := Option.bind_eq_some_iff.1 h
    obtain ⟨⟨statics, drawn⟩, hdraw, rfl⟩ := Option.map_eq_some_iff.1 h
    exact .run ht rfl hdraw
  | die c =>
    cases h
    exact .die
  | commit i ok =>
    obtain ⟨state, hstate, rfl⟩ := Option.map_eq_some_iff.1 h
    exact .commit hstate
  | serve i ok =>
    obtain ⟨state, hstate, rfl⟩ := Option.map_eq_some_iff.1 h
    exact .serve hstate

omit [DecidableEq Loc] in
/-- What a draw does. -/
theorem draw_cases {c : Client} {k : String} {cmds : List (Cmd Loc Cb Blob)} {call : Option Call}
    {statics : Client → Statics} {drawn : List (Client × Statics)}
    (h : s.draw key c k cmds call = some (statics, drawn)) :
    (∃ now rand st, call = some (now, rand) ∧ k = st.id ∧
        (s.statics c).counter.next now (randValue (randChars rand)) = some st.counter ∧
        statics = Function.update s.statics c st ∧ drawn = (c, st) :: s.drawn) ∨
      writesUnder key k cmds = false ∧ k ∉ s.state.issued ∧ k.length ≠ 20 ∧
        statics = s.statics ∧ drawn = s.drawn := by
  cases call with
  | some call =>
    obtain ⟨now, rand⟩ := call
    obtain ⟨⟨id, st⟩, hget, h⟩ := Option.bind_eq_some_iff.1 h
    obtain ⟨hid, hnext⟩ := get_eq_some hget
    obtain ⟨rfl, heq⟩ := Option.ite_none_right_eq_some.1 h
    cases heq
    exact .inl ⟨now, rand, st, rfl, hid, hnext, rfl, rfl⟩
  | none =>
    simp only [draw] at h
    split at h
    · cases h
    · next hnot =>
      cases h
      simp only [not_or, Bool.not_eq_true] at hnot
      exact .inr ⟨hnot.1, hnot.2.1, hnot.2.2, rfl, rfl⟩

end Step

/-! ## What was drawn -/

/-- What was drawn, against the statics, the keys that were issued and the log. -/
structure Drawn (s : System Loc Client Cb Blob App Action) : Prop where
  time : ∀ d ∈ s.drawn, 0 < d.2.lastPushTime ∧ d.2.lastPushTime < 64 ^ 8
  last : ∀ d ∈ s.drawn, d.2.lastPushTime = (s.statics d.1).lastPushTime →
    d.2.counter.count ≤ (s.statics d.1).counter.count
  order : s.drawn.Pairwise fun d' d => d'.1 = d.1 → d.2.counter.Before d'.2.counter
  issued : ∀ k ∈ s.state.issued, k.length = 20 → ∃ d ∈ s.drawn, d.2.id = k
  log : (s.drawn.map fun d => d.2.id).Sublist (s.state.log.filterMap Event.key?)

/-- Nothing was drawn, and nothing has happened. -/
structure Fresh (s : System Loc Client Cb Blob App Action) : Prop where
  drawn : s.drawn = []
  issued : s.state.issued = []

namespace Drawn

variable [DecidableEq Loc] [DecidableEq Client] {P : Program Loc Client Cb Blob App Action}
  {key : Loc → Option String} {s s' : System Loc Client Cb Blob App Action}
  {l : SystemLabel Client Action}

omit [DecidableEq Loc] [DecidableEq Client] in
theorem of_fresh (h : s.Fresh) : s.Drawn where
  time := by simp [h.drawn]
  last := by simp [h.drawn]
  order := by simp [h.drawn]
  issued := by simp [h.issued]
  log := by simp [h.drawn]

omit [DecidableEq Loc] [DecidableEq Client] in
/-- The next number of a device is behind all that it drew. -/
theorem before (h : s.Drawn) {c : Client} {now rand : ℕ} {counter : Counter}
    (hnext : (s.statics c).counter.next now rand = some counter) {d : Client × Statics}
    (hd : d ∈ s.drawn) (hc : d.1 = c)
    (hclock : d.2.lastPushTime ≤ now ∧
      (d.2.lastPushTime = now → (s.statics c).lastPushTime = now)) :
    d.2.counter.Before counter := by
  have htime := Counter.next_time hnext
  rcases Nat.lt_or_eq_of_le hclock.1 with hlt | heq
  · exact .inl (htime ▸ hlt)
  · -- the process that drew `d` goes on in the same millisecond
    have hsame := hclock.2 heq
    have hle := h.last d hd (by rw [hc, heq, hsame])
    rw [hc] at hle
    rcases Counter.before_next hnext (Nat.le_of_eq hsame) with hlt | ⟨-, hlt⟩
    · exact absurd (htime ▸ hlt) (by rw [Statics.counter, hsame]; exact lt_irrefl _)
    · exact .inr ⟨heq.trans htime.symm, Nat.lt_of_le_of_lt hle hlt⟩

omit [DecidableEq Loc] in
/-- A step with the key `k` that `c` draws or takes as a name. -/
theorem drawStep (h : s.Drawn) {c : Client} {k : String} {cmds : List (Cmd Loc Cb Blob)}
    {call : Option Call} {statics : Client → Statics} {drawn : List (Client × Statics)}
    {state : State Loc Client Cb Blob App Action} {ev : Event Loc Client Cb Blob Action}
    (hdraw : s.draw key c k cmds call = some (statics, drawn))
    (htimely : ∀ now rand, call = some (now, rand) → 0 < now ∧ now < 64 ^ 8 ∧ ∀ d ∈ s.drawn,
      if d.1 = c then
        d.2.lastPushTime ≤ now ∧ (d.2.lastPushTime = now → (s.statics c).lastPushTime = now)
      else d.2.id ≠ k)
    (hissued : state.issued = k :: s.state.issued) (hlog : state.log = ev :: s.state.log)
    (hev : ev.key? = some k) : k ∉ s.state.issued ∧ Drawn ⟨state, statics, drawn⟩ := by
  rcases draw_cases hdraw with ⟨now, rand, st, rfl, rfl, hnext, rfl, rfl⟩ |
    ⟨-, hk, hlen, rfl, rfl⟩
  · obtain ⟨hpos, hmax, hothers⟩ := htimely now rand rfl
    have htime : st.lastPushTime = now := Counter.next_time hnext
    have hbefore : ∀ d ∈ s.drawn, d.1 = c → d.2.counter.Before st.counter := by
      intro d hd hc
      have hclock := hothers d hd
      rw [if_pos hc] at hclock
      exact h.before hnext hd hc hclock
    have hne : ∀ d ∈ s.drawn, d.2.id ≠ st.id := by
      intro d hd
      by_cases hc : d.1 = c
      · exact id_ne_of_before (h.time d hd).2 (htime ▸ hmax) (hbefore d hd hc)
      · have := hothers d hd
        rwa [if_neg hc] at this
    refine ⟨fun hk => ?_, ?_, ?_, ?_, ?_, ?_⟩
    · obtain ⟨d, hd, hid⟩ := h.issued _ hk (length_id st)
      exact hne d hd hid
    · exact List.forall_mem_cons.2 ⟨⟨htime ▸ hpos, htime ▸ hmax⟩, h.time⟩
    · refine List.forall_mem_cons.2 ⟨fun _ => by simp, fun d hd => ?_⟩
      by_cases hc : d.1 = c
      · subst hc
        simp only [Function.update_self]
        intro hsame
        rcases hbefore d hd rfl with hlt | ⟨-, hlt⟩
        · exact absurd hsame (Nat.ne_of_lt hlt)
        · exact Nat.le_of_lt hlt
      · simp only [Function.update_of_ne hc]
        exact h.last d hd
    · exact List.pairwise_cons.2 ⟨fun d hd hc => hbefore d hd hc.symm, h.order⟩
    · simp only [hissued]
      refine List.forall_mem_cons.2 ⟨fun _ => ⟨_, List.mem_cons_self, rfl⟩, fun k hk hlen => ?_⟩
      obtain ⟨d, hd, hid⟩ := h.issued k hk hlen
      exact ⟨d, List.mem_cons_of_mem _ hd, hid⟩
    · simp only [hlog, List.map_cons, List.filterMap_cons_some hev]
      exact h.log.cons_cons _
  · refine ⟨hk, h.time, h.last, h.order, ?_, ?_⟩
    · simp only [hissued]
      exact List.forall_mem_cons.2 ⟨fun hlen' => absurd hlen' hlen, h.issued⟩
    · simp only [hlog, List.filterMap_cons_some hev]
      exact h.log.trans (List.sublist_cons_self ..)

omit [DecidableEq Loc] [DecidableEq Client] in
/-- A step of the model that draws no key. -/
theorem keep (h : s.Drawn) {state : State Loc Client Cb Blob App Action}
    {ev : Event Loc Client Cb Blob Action} (hissued : state.issued = s.state.issued)
    (hlog : state.log = ev :: s.state.log) (hev : ev.key? = none) :
    Drawn ⟨state, s.statics, s.drawn⟩ := by
  refine ⟨h.time, h.last, h.order, ?_, ?_⟩
  · simp only [hissued]
    exact h.issued
  · simp only [hlog, List.filterMap_cons_none hev]
    exact h.log

omit [DecidableEq Loc] in
/-- A process that ends takes its statics with it. -/
theorem die (h : s.Drawn) (c : Client) (app : App) :
    Drawn ⟨s.state.died c app, Function.update s.statics c .initial, s.drawn⟩ := by
  have hkeep : Drawn ⟨s.state.died c app, s.statics, s.drawn⟩ := h.keep rfl rfl rfl
  refine ⟨h.time, fun d hd => ?_, h.order, hkeep.issued, hkeep.log⟩
  by_cases hc : d.1 = c
  · intro hzero
    simp only [hc, Function.update_self] at hzero
    exact absurd hzero (Nat.ne_of_gt (h.time d hd).1)
  · simp only [Function.update_of_ne hc]
    exact h.last d hd

/-- A step of the system is one of the model: the key is new. -/
theorem step (h : s.Drawn) (hm : Moves P key s l s') (hl : s.Timely P l) :
    Realtime.step P s.state l.1 = some s'.state ∧ s'.Drawn := by
  cases hm with
  | @press a e c app cmds call statics drawn hact hdraw =>
    have hdrawn : e.key ∉ s.state.issued ∧
        Drawn ⟨s.state.pressed a e c app cmds, statics, drawn⟩ := by
      refine h.drawStep hdraw (fun now rand hcall => ?_) rfl rfl rfl
      subst hcall
      exact hl (c, e.key) (by simp [actor, hact])
    exact ⟨step_of_transition (.press hdrawn.1 hact), hdrawn.2⟩
  | @run i e t app cmds call statics drawn ht hrun hdraw =>
    have hdrawn : e.key ∉ s.state.issued ∧
        Drawn ⟨s.state.ran i t e app cmds, statics, drawn⟩ := by
      refine h.drawStep hdraw (fun now rand hcall => ?_) rfl rfl rfl
      subst hcall
      exact hl (t.client, e.key) (by simp [actor, ht])
    exact ⟨step_of_transition (.run hdrawn.1 ht hrun), hdrawn.2⟩
  | @die c => exact ⟨rfl, h.die c _⟩
  | commit hstate =>
    refine ⟨hstate, ?_⟩
    cases transition_of_step hstate with
    | apply | reject => exact h.keep rfl rfl rfl
  | serve hstate =>
    refine ⟨hstate, ?_⟩
    cases transition_of_step hstate with
    | serve => exact h.keep rfl rfl rfl

theorem of_reaches {s₀ : System Loc Client Cb Blob App Action} (h₀ : s₀.Fresh)
    (h : Reaches (System.step P key) (Timely P) s₀ s) : s.Drawn :=
  h.invariant (of_fresh h₀) fun hd hl hs => (hd.step (moves_of_step hs) hl).2

end Drawn

section Reaches

variable [DecidableEq Loc] [DecidableEq Client] {P : Program Loc Client Cb Blob App Action}
  {key : Loc → Option String} {s₀ s : System Loc Client Cb Blob App Action}

/-- A run of the system is a run of the model. -/
theorem reaches (h₀ : s₀.Fresh) (h : Reaches (System.step P key) (Timely P) s₀ s) :
    Reaches (Realtime.step P) (fun _ _ => True) s₀.state s.state := by
  induction h with
  | refl => exact .refl
  | tail hrun hl hs ih =>
    exact ih.tail trivial ((Drawn.of_reaches h₀ hrun).step (moves_of_step hs) hl).1

/-! ## What is written under a key -/

/-- Who writes under a key drew it. -/
structure Backed (key : Loc → Option String) (s : System Loc Client Cb Blob App Action) :
    Prop where
  waiting : ∀ w ∈ s.state.writes, ∀ l v, w.op = .update l v → ∀ k ∈ key l,
    ∃ st, (w.client, st) ∈ s.drawn ∧ st.id = k
  resolved : ∀ c l v ok, .resolved c (.update l v) ok ∈ s.state.log → ∀ k ∈ key l,
    ∃ st, (c, st) ∈ s.drawn ∧ st.id = k

namespace Backed

variable {s' : System Loc Client Cb Blob App Action} {l : SystemLabel Client Action}

omit [DecidableEq Loc] in
/-- The commands of a step write under no other key than the one that is drawn in it. -/
theorem drawStep (h : s.Backed key) {c : Client} {k : String} {cmds : List (Cmd Loc Cb Blob)}
    {call : Option Call} {statics : Client → Statics} {drawn : List (Client × Statics)}
    {state : State Loc Client Cb Blob App Action}
    (hdraw : s.draw key c k cmds call = some (statics, drawn)) (hdraws : DrawsKey key k cmds)
    (hwrites : state.writes = s.state.writes ++ newWrites c cmds)
    (hlog : ∀ c op ok, .resolved c op ok ∈ state.log → .resolved c op ok ∈ s.state.log) :
    Backed key ⟨state, statics, drawn⟩ := by
  have hmono : ∀ d ∈ s.drawn, d ∈ drawn := by
    rcases draw_cases hdraw with ⟨_, _, st, -, -, -, -, rfl⟩ | ⟨-, -, -, -, rfl⟩
    · exact fun d hd => List.mem_cons_of_mem _ hd
    · exact fun d hd => hd
  constructor
  · intro w hw l v hop k' hk'
    rw [hwrites] at hw
    rcases List.mem_append.1 hw with hw | hw
    · obtain ⟨st, hst, hid⟩ := h.waiting w hw l v hop k' hk'
      exact ⟨st, hmono _ hst, hid⟩
    · obtain ⟨hclient, hcmd⟩ := mem_newWrites.1 hw
      rw [hop] at hcmd
      obtain rfl : k' = k := hdraws.key_eq l v _ hcmd k' hk'
      have hunder : writesUnder key k' cmds = true :=
        writesUnder_eq_true.2 ⟨l, v, _, hcmd, hk'⟩
      rcases draw_cases hdraw with ⟨_, _, st, -, hid, -, -, rfl⟩ | ⟨hnot, -⟩
      · exact ⟨st, by rw [hclient]; exact List.mem_cons_self, hid.symm⟩
      · rw [hunder] at hnot
        cases hnot
  · intro c' l v ok hres k' hk'
    obtain ⟨st, hst, hid⟩ := h.resolved c' l v ok (hlog _ _ _ hres) k' hk'
    exact ⟨st, hmono _ hst, hid⟩

omit [DecidableEq Loc] [DecidableEq Client] in
/-- The server answers the write `w`. -/
theorem answer (h : s.Backed key) {state : State Loc Client Cb Blob App Action}
    {w : Write Loc Client Cb} {ok : Bool} (hw : w ∈ s.state.writes)
    (hwrites : ∀ w ∈ state.writes, w ∈ s.state.writes)
    (hlog : state.log = .resolved w.client w.op ok :: s.state.log) :
    Backed key ⟨state, s.statics, s.drawn⟩ := by
  refine ⟨fun w' hw' => h.waiting w' (hwrites w' hw'), fun c l v ok' hres => ?_⟩
  simp only [hlog] at hres
  rcases List.mem_cons.1 hres with heq | hres
  · obtain ⟨rfl, hop, -⟩ := Event.resolved.inj heq
    exact h.waiting w hw l v hop.symm
  · exact h.resolved c l v ok' hres

theorem step (h : s.Backed key) (hP : DrawsKeys P key) (hm : Moves P key s l s') :
    s'.Backed key := by
  cases hm with
  | press hact hdraw => exact h.drawStep hdraw (hP.act hact) rfl fun _ _ _ => by simp
  | @run i e t app cmds call statics drawn ht hrun hdraw =>
    have hdraws := hP.handle t.client e t.cb t.input s.state.app
    rw [hrun] at hdraws
    exact h.drawStep hdraw hdraws rfl fun _ _ _ => by simp
  | die =>
    refine ⟨fun w hw => h.waiting w (List.mem_filter.1 hw).1, fun c l v ok hres => ?_⟩
    exact h.resolved c l v ok (by simpa using hres)
  | commit hstate =>
    cases transition_of_step hstate with
    | apply hw | reject hw =>
      exact h.answer (List.mem_of_getElem? hw) (fun _ => List.mem_of_mem_eraseIdx) rfl
  | serve hstate =>
    cases transition_of_step hstate with
    | serve => exact ⟨h.waiting, fun c l v ok hres => h.resolved c l v ok (by simpa using hres)⟩

theorem of_reaches (hs : Initial s₀.state) (hP : DrawsKeys P key)
    (h : Reaches (System.step P key) (Timely P) s₀ s) : s.Backed key := by
  refine h.invariant ⟨?_, ?_⟩ fun hb _ hstep => hb.step hP (moves_of_step hstep)
  · simp [hs.writes]
  · simp [hs.log]

end Backed

omit [DecidableEq Loc] [DecidableEq Client] in
/-- Of two ids of one device, the one of the earlier step is first. -/
theorem Drawn.lt_of_log (h : s.Drawn) (hkeys : KeysFresh s.state) {c : Client} {st st' : Statics}
    (hst : (c, st) ∈ s.drawn) (hst' : (c, st') ∈ s.drawn)
    (hlog : [st'.id, st.id].Sublist (s.state.log.filterMap Event.key?)) :
    compareKey (.key st.id) (.key st'.id) = .lt := by
  have hids : (s.drawn.map fun d => d.2.id).Nodup := h.log.nodup hkeys.nodup
  have hmem : ∀ {st : Statics}, (c, st) ∈ s.drawn → st.id ∈ s.drawn.map fun d => d.2.id :=
    fun hst => List.mem_map.2 ⟨_, hst, rfl⟩
  -- the two ids are in the order of the log among those that were drawn
  have hsubset : [st'.id, st.id] ⊆ s.drawn.map fun d => d.2.id :=
    List.cons_subset.2 ⟨hmem hst', List.cons_subset.2 ⟨hmem hst, List.nil_subset _⟩⟩
  obtain ⟨ids, hperm, hsub⟩ := List.subperm_of_subset (hlog.nodup hkeys.nodup) hsubset
  obtain rfl := (hkeys.nodup.perm_iff_eq_of_sublist (hsub.trans h.log) hlog).1 hperm
  obtain ⟨ds, hds, hmap⟩ := List.sublist_map_iff.1 hsub
  obtain ⟨d', ds, rfl, hd', hmap⟩ := List.map_eq_cons_iff.1 hmap.symm
  obtain ⟨d, ds, rfl, hd, hmap⟩ := List.map_eq_cons_iff.1 hmap
  have hinj := List.inj_on_of_nodup_map hids
  obtain rfl := hinj (hds.subset (by simp)) hst' hd'
  obtain rfl := hinj (hds.subset (by simp)) hst hd
  have hbefore := List.rel_of_pairwise_cons (h.order.sublist hds) List.mem_cons_self rfl
  exact (compareKey_id (h.time _ hst).2 (h.time _ hst').2).2 hbefore

end Reaches

end System

end FLChat.Keys
