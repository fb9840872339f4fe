import FLChat.Friends.Removal

/-!
# Sending when writes are rejected

The record of a request is written without a completion, and the completions of the two entries
print the error and go on. So the alert of success is shown whatever the server did with the three
writes (`reported_of_sent`), nothing takes back what has been written, and a send reports the truth
and leaves nothing behind exactly when the server rejected none of its writes (`sendsCleanly_iff`).
-/

namespace FLChat.Friends

open Realtime

variable {email : UID → String} {s₀ s₁ s₂ s₃ : FState} {c : Client} {t : UID} {k : String}

/-! ## The alerts -/

/-- The alert that an event raises. -/
def alertOf : FEvent → Option (Client × String)
  | .ran ⟨c, .requestSend _ _ userName, .acked _⟩ _ => some (c, requestSentTitle userName)
  | .ran ⟨c, .removeInner _ _ userName, .childAdded _⟩ _ => some (c, friendAddedTitle userName)
  | _ => none

/-- The alert for the request `k` has been shown. -/
def Reported (log : List FEvent) (c : Client) (k : String) : Prop :=
  ∃ toId userName ok e, .ran ⟨c, .requestSend k toId userName, .acked ok⟩ e ∈ log

theorem alerts_act {a : Action} {e : Env} {app app' : App} {cmds : List Command}
    (hact : act email a e app = some (c, app', cmds)) : app'.alerts = app.alerts := by
  cases pressed_of_act hact <;> rfl

theorem alerts_userRead (call : Call) (user : Option UserParams) (app : App) :
    (userRead email call user app).alerts = app.alerts := by
  unfold userRead
  split
  · rfl
  · split <;> rfl

/-- A callback raises its alert and no other. -/
theorem alerts_handle (t : Task Loc Client Cb) (e : Env) (app : App) :
    (handle email t.client t.cb t.input app).1.alerts =
      (alertOf (.ran t e)).toList ++ app.alerts := by
  obtain ⟨c, cb, input⟩ := t
  simp only
  cases cb with
  | userRead call side =>
    cases input with
    | value l v => cases l <;> simp [handle, alertOf, alerts_userRead]
    | acked | childAdded | stored | url => rfl
  | recordRead call =>
    cases input with
    | value l v => cases l <;> rfl
    | acked | childAdded | stored | url => rfl
  | requestSend | userFriendAdded | recipientFriendAdded | removeOuter | removeInner
  | recipientAdded | peerAdded | entryAdded => cases input <;> rfl

/-- The alerts that have been shown are those of the callbacks that ran. -/
theorem alerts_of_reaches {ok : FState → FLabel → Prop}
    (h : Reaches (step (program email)) ok s₁ s₂) :
    s₂.app.alerts = (since s₁ s₂).filterMap alertOf ++ s₁.app.alerts := by
  induction h with
  | refl => simp
  | @tail t u l ht _ hstep ih =>
    have hs := transition_of_step hstep
    obtain ⟨ev, hlog, hsince⟩ := since_step ht hs
    rw [hsince]
    cases hs with
    | press _ hact =>
      obtain rfl := (List.cons.inj hlog).1
      rw [State.pressed_app, alerts_act hact, ih]
      rfl
    | @run i e t app cmds _ _ hrun =>
      obtain rfl := (List.cons.inj hlog).1
      have happ : (handle email t.client t.cb t.input _).1 = app := congrArg Prod.fst hrun
      rw [State.ran_app, ← happ, alerts_handle t e, ih, List.filterMap_cons]
      cases alertOf (.ran t e) <;> rfl
    | apply | reject | serve | die =>
      obtain rfl := (List.cons.inj hlog).1
      exact ih

/-! ## A send -/

/-- What a send of `k` from `f` to `t` writes. -/
def requestLocs (f t : UID) (k : String) : List Loc :=
  [.friendRequest k, .userFriendRequest f t k, .userFriendRequest t f k]

/-- The server accepted what was written to `l`. -/
def Persisted (log : List FEvent) (l : Loc) : Prop := Written log l ∧ ¬ Rejected log l

/-- The process of `c` does not end in this step. -/
def Survives (c : Client) (_ : FState) (l : FLabel) : Prop := l ≠ .die c

instance (c : Client) (s : FState) : DecidablePred (Survives c s)
  | .die c' => decidable_of_iff (c' ≠ c) (by simp [Survives])
  | .press _ _ | .run _ _ | .commit _ _ | .serve _ _ => isTrue (by simp [Survives])

/-- Nothing of the send of `k` by `c` is under way: no write of it waits, and the completion that
shows the alert has run. -/
structure Finished (s : FState) (c : Client) (k : String) : Prop where
  writes : ∀ w ∈ s.writes, w.client = c → ∀ l v, w.op = .update l v → l.key ≠ k
  tasks : ∀ t ∈ s.tasks, t.client = c → ∀ toId userName, t.cb ≠ .requestSend k toId userName

/-- The send reports success only if all of its writes persisted, and leaves none of its entries
if one was rejected. -/
structure SendsCleanly (s : FState) (c : Client) (t : UID) (k : String) : Prop where
  reported : Reported s.log c k → ∀ l ∈ requestLocs c.uid t k, Persisted s.log l
  clean : (∃ l ∈ requestLocs c.uid t k, Rejected s.log l) →
    ∀ l ∈ requestLocs c.uid t k, l ∉ s.tree

theorem Finished.of_quiescent (hq : s₃.Quiescent) : Finished s₃ c k where
  writes := by simp [hq.writes]
  tasks := by simp [hq.tasks]

/-- A write of the send has been answered, and its completion has run. -/
theorem Finished.resolved (hfin : Finished s₃ c k) {l : Loc} {v : Val l} {cb : Option Cb}
    (hp : Progress s₃ c (.write (.update l v) cb)) (hl : l.key = k) :
    ∃ ok, .resolved c (.update l v) ok ∈ s₃.log ∧
      ∀ toId userName, cb = some (.requestSend k toId userName) →
        ∃ e, .ran ⟨c, .requestSend k toId userName, .acked ok⟩ e ∈ s₃.log := by
  rcases hp with hw | ⟨ok, hr, hdue⟩
  · exact absurd hl (hfin.writes _ hw rfl l v rfl)
  · refine ⟨ok, hr, fun toId userName hcb => ?_⟩
    rcases hdue _ hcb with ht | hran
    · exact absurd rfl (hfin.tasks _ ht rfl toId userName)
    · exact hran

section Send

variable {ok : FState → FLabel → Prop} {peer : UserParams} {e : Env} (hs : Start s₀)
  (h₁ : Reaches (step (program email)) ok s₀ s₁)
  (hpress : step (program email) s₁ (.press (.sendFrienRequestBtnPressed c peer) e) = some s₂)
  (h₂ : Reaches (step (program email)) (Survives c) s₂ s₃)
include hs h₁ hpress

/-- A request is sent under a fresh key. -/
theorem not_pressed_before {a : Action} {e' : Env} (hkey : e'.key = e.key) :
    .pressed a e' ∉ s₁.log := by
  intro hev
  have hissued := (traced_of_reaches hs h₁).keys.issued _ hev e'.key rfl
  cases transition_of_step hpress with
  | press hfresh => exact hfresh (hkey ▸ hissued)

/-- No completion of a request has run before it was sent. -/
theorem not_ran_before {toId : UID} {userName : String} {b : Bool} {e' : Env} :
    .ran ⟨c, .requestSend e.key toId userName, .acked b⟩ e' ∉ s₁.log := by
  intro hran
  obtain ⟨peer', e'', hev, -, hkey⟩ :=
    Traced.sentBy_of_requestSend ((traced_of_reaches hs h₁).origin.log _ hran)
  exact not_pressed_before hs h₁ hpress hkey hev

include h₂

/-- When the send has finished, its alert has been shown and the server has answered all three
writes, whatever its answers are. -/
theorem reported_of_sent (hfin : Finished s₃ c e.key) : Reported s₃.log c e.key ∧
    (∃ new, s₃.app.alerts = new ++ s₁.app.alerts ∧ (c, requestSentTitle peer.name) ∈ new) ∧
    ∀ l ∈ requestLocs c.uid peer.uid e.key, ∃ v b, .resolved c (.update l v) b ∈ s₃.log := by
  have hfirst : Reaches (step (program email)) (Survives c) s₁ s₂ :=
    Reaches.refl.tail (by simp [Survives]) hpress
  have hprogress : ProgressedSince (program email) anyApp (fun c' => c' = c) s₁ s₃ :=
    .of_reaches (fun _ _ hc hl => hl (hc ▸ rfl)) (fun _ _ => anyApp_holds _ _) (hfirst.trans h₂)
  have hlog := log_suffix (hfirst.trans h₂)
  have hpressed : .pressed (.sendFrienRequestBtnPressed c peer) e ∈ since s₁ s₃ := by
    refine mem_since hlog ((log_suffix h₂).subset ?_) (not_pressed_before hs h₁ hpress rfl)
    cases transition_of_step hpress with
    | press => exact List.mem_cons_self
  obtain ⟨app, c', app', cmds, -, hact, hp⟩ := hprogress.pressed _ _ hpressed
  rw [program_act] at hact
  cases pressed_of_act hact with
  | send =>
    obtain ⟨b, hrecord, -⟩ := hfin.resolved (hp rfl _ List.mem_cons_self) rfl
    obtain ⟨b', hindex, hran⟩ :=
      hfin.resolved (hp rfl _ (List.mem_cons_of_mem _ List.mem_cons_self)) rfl
    obtain ⟨e', hran⟩ := hran _ _ rfl
    -- the completion of the sender's entry goes on to the recipient's
    have hsince := mem_since hlog hran (not_ran_before hs h₁ hpress)
    obtain ⟨app, -, hp⟩ := hprogress.ran _ _ hsince
    obtain ⟨b'', hrecipient, -⟩ := hfin.resolved (hp rfl _ List.mem_cons_self) rfl
    refine ⟨⟨_, _, b', e', hran⟩, ⟨_, alerts_of_reaches (hfirst.trans h₂),
      List.mem_filterMap.2 ⟨_, hsince, rfl⟩⟩, ?_⟩
    simp only [requestLocs, List.mem_cons, List.not_mem_nil, or_false]
    rintro l (rfl | rfl | rfl)
    · exact ⟨_, b, hrecord⟩
    · exact ⟨_, b', hindex⟩
    · exact ⟨_, b'', hrecipient⟩

/-- A send reports the truth and leaves nothing behind exactly when the server rejects none of its
three writes. -/
theorem sendsCleanly_iff (hfin : Finished s₃ c e.key) :
    SendsCleanly s₃ c peer.uid e.key ↔
      ∀ l ∈ requestLocs c.uid peer.uid e.key, ¬ Rejected s₃.log l := by
  obtain ⟨hreported, -, hresolved⟩ := reported_of_sent hs h₁ hpress h₂ hfin
  constructor
  · intro hclean l hl
    exact (hclean.reported hreported l hl).2
  · intro hrej
    refine ⟨fun _ l hl => ⟨?_, hrej l hl⟩, fun ⟨l, hl, hr⟩ => absurd hr (hrej l hl)⟩
    obtain ⟨v, b, hr⟩ := hresolved l hl
    cases b with
    | true => exact ⟨c, v, hr⟩
    | false => exact absurd ⟨c, v, hr⟩ (hrej l hl)

end Send

/-! ## A request that Alice sends to Bob -/

/-- Alice sends Bob a request. The server answers the write of its record with `ok`. -/
def sendBob : FLabel := .press (.sendFrienRequestBtnPressed alice (found "bob")) ⟨"k", 0⟩

theorem sendBob_steps : (step (program mail) start sendBob).isSome = true := by decide +kernel

def sending : FState := (step (program mail) start sendBob).get sendBob_steps

def sendingOn (ok : Bool) : List FLabel := [
  .commit 0 ok, .commit 0 true, .run 0 ⟨"a1", 1⟩, .commit 0 true, .run 0 ⟨"a2", 2⟩]

theorem sendingOn_runs (ok : Bool) :
    (exec (step (program mail)) (Survives alice) sending (sendingOn ok)).isSome = true := by
  cases ok <;> decide +kernel

def sendingDone (ok : Bool) : FState :=
  (exec (step (program mail)) (Survives alice) sending (sendingOn ok)).get (sendingOn_runs ok)

theorem sendingDone_reached (ok : Bool) :
    Reaches (step (program mail)) (Survives alice) sending (sendingDone ok) :=
  .of_exec (Option.some_get _).symm

theorem sendingDone_finished (ok : Bool) : Finished (sendingDone ok) alice "k" := by
  cases ok <;> exact .of_quiescent ⟨rfl, rfl, rfl⟩

theorem sendsCleanly_iff_sendingDone : SendsCleanly (sendingDone true) alice "bob" "k" ↔
    ∀ l ∈ requestLocs "alice" "bob" "k", ¬ Rejected (sendingDone true).log l :=
  sendsCleanly_iff start_start (.refl : Reaches (step (program mail)) Succeeds start start)
    (Option.some_get _).symm (sendingDone_reached true) (sendingDone_finished true)

/-- Every send reports the truth and leaves nothing behind. -/
def SendsAreClean (email : UID → String) : Prop :=
  ∀ s₀ s₁ s₂ s₃ c peer e, Start s₀ → Reaches (step (program email)) Succeeds s₀ s₁ →
    step (program email) s₁ (.press (.sendFrienRequestBtnPressed c peer) e) = some s₂ →
    Reaches (step (program email)) (Survives c) s₂ s₃ → Finished s₃ c e.key →
    SendsCleanly s₃ c peer.uid e.key

/-- The server rejects the record: success is reported, and both have an entry for a request that
is not there. -/
theorem not_sendsAreClean : ¬ SendsAreClean mail := by
  intro h
  have hclean := h start start sending (sendingDone false) alice (found "bob") ⟨"k", 0⟩ start_start
    .refl (Option.some_get _).symm (sendingDone_reached false) (sendingDone_finished false)
  have hreported : Reported (sendingDone false).log alice "k" :=
    ⟨"bob", "bob", true, ⟨"a1", 1⟩, List.mem_of_getElem? (i := 2) rfl⟩
  exact (hclean.reported hreported (.friendRequest "k") List.mem_cons_self).2
    ⟨alice, _, List.mem_of_getElem? (i := 4) rfl⟩

end FLChat.Friends
