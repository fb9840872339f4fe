import FLChat.Friends.Issued

/-!
# Requests in a run

The facts about requests that hold in every state of a run, read off the history of the backend.
The runs are those in which no process ends and the server rejects no write, except perhaps some
of the three that make a friendship (`Proceeds`).
-/

namespace FLChat.Friends

open Realtime

variable {email : UID → String} {G : Guard Loc Client Cb Unit App Action} {s₀ s s' : FState}

/-! ## What the log says -/

/-- The client `c` sent `t` the request `k`. -/
def SentBy (log : List FEvent) (c : Client) (t : UID) (k : String) : Prop :=
  ∃ peer e, .pressed (.sendFrienRequestBtnPressed c peer) e ∈ log ∧ peer.uid = t ∧ e.key = k

/-- `f` sent `t` the request `k`. -/
def Sent (log : List FEvent) (f t : UID) (k : String) : Prop :=
  ∃ c : Client, c.uid = f ∧ SentBy log c t k

/-- `k` is a request between `u` and `v`, whoever sent it. -/
def Between (log : List FEvent) (u v : UID) (k : String) : Prop := Sent log u v k ∨ Sent log v u k

/-- The client `c` accepted `f` and drew the key `k` for the friendship. -/
def AcceptedBy (log : List FEvent) (c : Client) (f : UID) (k : String) : Prop :=
  ∃ peer e, .pressed (.addUsertoFriendsBtnPressed c peer) e ∈ log ∧ peer.uid = f ∧ e.key = k

/-- `t` accepted `f` and drew the key `k` for their friendship. -/
def Accepted (log : List FEvent) (f t : UID) (k : String) : Prop :=
  ∃ c : Client, c.uid = t ∧ AcceptedBy log c f k

/-- The client that sends or accepts. -/
def Action.sender : Action → Option Client
  | .sendFrienRequestBtnPressed c _ | .addUsertoFriendsBtnPressed c _ => some c
  | .search .. | .didSelectItemAt .. | .profileLoaded .. => none

/-- The client `c` drew the key `k` when it sent or accepted. -/
def PressedBy (log : List FEvent) (c : Client) (k : String) : Prop :=
  ∃ a e, .pressed a e ∈ log ∧ a.sender = some c ∧ e.key = k

/-- The key of a record or an entry. -/
def Loc.key : Loc → String
  | .friendRequest key | .userFriendRequest _ _ key | .friends key | .userFriends _ key => key

/-- A record, not an entry of an index. -/
def Loc.isRecord : Loc → Bool
  | .friendRequest _ | .friends _ => true
  | .userFriendRequest .. | .userFriends .. => false

theorem Between.symm {log : List FEvent} {u v : UID} {k : String} (h : Between log u v k) :
    Between log v u k := Or.symm h

theorem Sent.mono {log log' : List FEvent} (hlog : ∀ ev ∈ log, ev ∈ log') {f t : UID} {k : String}
    (h : Sent log f t k) : Sent log' f t k := by
  obtain ⟨c, hc, peer, e, hev, h⟩ := h
  exact ⟨c, hc, peer, e, hlog _ hev, h⟩

theorem Between.mono {log log' : List FEvent} (hlog : ∀ ev ∈ log, ev ∈ log') {u v : UID}
    {k : String} (h : Between log u v k) : Between log' u v k :=
  h.imp (.mono hlog) (.mono hlog)

theorem Accepted.mono {log log' : List FEvent} (hlog : ∀ ev ∈ log, ev ∈ log') {f t : UID}
    {k : String} (h : Accepted log f t k) : Accepted log' f t k := by
  obtain ⟨c, hc, peer, e, hev, h⟩ := h
  exact ⟨c, hc, peer, e, hlog _ hev, h⟩

/-! ## The runs -/

/-- One of the writes that make a friendship. -/
def Friendship : Op Loc → Bool
  | .update (.friends _) _ | .update (.userFriends _ _) _ => true
  | _ => false

/-- The steps of a run in which no process ends and only writes of friendships are rejected. -/
def Proceeds (s : FState) : FLabel → Prop
  | .press _ _ | .run _ _ | .serve _ _ => True
  | .commit i ok => ok = true ∨ ∀ w ∈ s.writes[i]?, Friendship w.op
  | .die _ => False

/-- The steps of a run in which no process ends and every write succeeds. -/
def Succeeds (_ : FState) : FLabel → Prop
  | .press _ _ | .run _ _ | .serve _ _ => True
  | .commit _ ok => ok = true
  | .die _ => False

instance (s : FState) : DecidablePred (Proceeds s)
  | .press _ _ | .run _ _ | .serve _ _ => isTrue trivial
  | .commit i ok =>
    inferInstanceAs (Decidable (ok = true ∨ ∀ w ∈ s.writes[i]?, Friendship w.op = true))
  | .die _ => isFalse id

instance (s : FState) : DecidablePred (Succeeds s)
  | .press _ _ | .run _ _ | .serve _ _ => isTrue trivial
  | .commit _ ok => inferInstanceAs (Decidable (ok = true))
  | .die _ => isFalse id

theorem Succeeds.proceeds {s : FState} {l : FLabel} (h : Succeeds s l) : Proceeds s l := by
  cases l with
  | commit i ok => exact .inl h
  | press | run | serve | die => exact h

theorem Proceeds.noDeath : NoDeath Proceeds := fun _ _ h => h

/-- Nothing has happened yet. -/
structure Start (s₀ : FState) : Prop where
  initial : Initial s₀
  tree : s₀.tree = ∅
  app : s₀.app.Fresh

/-- What the backend guarantees of every state of every run. -/
structure Traced (email : UID → String) (G : Guard Loc Client Cb Unit App Action) (s : FState) :
    Prop where
  origin : Origin (program email) G s
  keys : KeysFresh s
  kept : PresentOrRemoved s
  values : ValuesWritten (fun _ => True) s
  covered : Covered s

theorem Traced.of_reaches {ok : FState → FLabel → Prop} (hs : Start s₀)
    (hG : ∀ {t l}, Reaches (step (program email)) ok s₀ t → ok t l → G.Holds t l)
    (h : Reaches (step (program email)) ok s₀ s) : Traced email G s where
  origin := .of_reaches hs.initial hs.tree hG h
  keys := .of_reaches hs.initial h
  kept := .of_reaches hs.initial h
  values := .of_reaches hs.tree (fun _ w _ l new _ _ _ old _ => by cases l <;> rfl) h
  covered := .of_reaches hs.initial h

/-- And of every state of a run that proceeds. -/
structure Facts (email : UID → String) (G : Guard Loc Client Cb Unit App Action) (s : FState) : Prop
    extends Traced email G s where
  progressed : Progressed (program email) G s
  attached : Attached s
  rejected : ∀ c op, .resolved c op false ∈ s.log → Friendship op = true

theorem Facts.of_reaches {ok : FState → FLabel → Prop} (hs : Start s₀)
    (hok : ∀ s l, ok s l → Proceeds s l)
    (hG : ∀ {t l}, Reaches (step (program email)) ok s₀ t → ok t l → G.Holds t l)
    (h : Reaches (step (program email)) ok s₀ s) : Facts email G s where
  toTraced := .of_reaches hs hG h
  progressed := .of_reaches hs.initial (fun s c h => hok s _ h) hG h
  attached := .of_reaches hs.initial (fun s c h => hok s _ h) h
  rejected c op hr := by
    refine rejected_of_reaches (Q := fun op => Friendship op = true) hs.initial
      (fun s i w hl hw => ?_) h hr
    exact (hok _ _ hl).elim (fun h => nomatch h) fun h => h w hw

/-- Nothing is asked of the program state. -/
def anyApp : Guard Loc Client Cb Unit App Action := fun _ _ => True

theorem anyApp_holds (s : FState) (l : FLabel) : anyApp.Holds s l := by
  cases l with
  | run => exact fun _ _ => trivial
  | press | commit | serve | die => trivial

theorem traced_of_reaches {ok : FState → FLabel → Prop} (hs : Start s₀)
    (h : Reaches (step (program email)) ok s₀ s) : Traced email anyApp s :=
  .of_reaches hs (fun _ _ => anyApp_holds _ _) h

theorem facts_of_reaches {ok : FState → FLabel → Prop} (hs : Start s₀)
    (hok : ∀ s l, ok s l → Proceeds s l) (h : Reaches (step (program email)) ok s₀ s) :
    Facts email anyApp s :=
  .of_reaches hs hok (fun _ _ => anyApp_holds _ _) h

namespace Traced

variable {c : Client} {f t u v : UID} {k : String}

/-! ## Sends -/

/-- A request is known by its key. -/
theorem sentBy_unique (h : Traced email G s) {c' : Client} {t' : UID} (hk : SentBy s.log c t k)
    (hk' : SentBy s.log c' t' k) : c = c' ∧ t = t' := by
  obtain ⟨peer, e, hev, rfl, rfl⟩ := hk
  obtain ⟨peer', e', hev', rfl, hkey⟩ := hk'
  have := h.keys.event_eq hev hev' rfl (congrArg some hkey)
  cases this
  exact ⟨rfl, rfl⟩

theorem sent_unique (h : Traced email G s) {f' t' : UID} (hk : Sent s.log f t k)
    (hk' : Sent s.log f' t' k) : f = f' ∧ t = t' := by
  obtain ⟨c, rfl, hk⟩ := hk
  obtain ⟨c', rfl, hk'⟩ := hk'
  obtain ⟨rfl, rfl⟩ := h.sentBy_unique hk hk'
  exact ⟨rfl, rfl⟩

theorem between_unique (h : Traced email G s) {u' v' : UID} (hk : Between s.log u v k)
    (hk' : Between s.log u' v' k) : u = u' ∧ v = v' ∨ u = v' ∧ v = u' := by
  rcases hk with hk | hk <;> rcases hk' with hk' | hk'
  · exact .inl (h.sent_unique hk hk')
  · exact .inr (h.sent_unique hk hk')
  · obtain ⟨rfl, rfl⟩ := h.sent_unique hk hk'
    exact .inr ⟨rfl, rfl⟩
  · obtain ⟨rfl, rfl⟩ := h.sent_unique hk hk'
    exact .inl ⟨rfl, rfl⟩

/-- The record of a request is written by the press that sent it. -/
theorem request_issued {log : List FEvent} {d : RequestDict} {cb : Option Cb}
    (hi : Issued (program email) G log c (.write (.update (.friendRequest k) d) cb)) :
    SentBy log c d.toId k ∧ d.fromId = c.uid := by
  obtain ⟨ev, hev, app, -, hi⟩ := issues_of_issued hi
  cases hi with
  | request => exact ⟨⟨_, _, hev, rfl, rfl⟩, rfl⟩

/-- A record that is there is the one of its press. -/
theorem sentBy_of_lookup (h : Traced email G s) {d : RequestDict}
    (hd : s.tree.lookup (.friendRequest k) = some d) : Sent s.log d.fromId d.toId k := by
  obtain ⟨c, hr⟩ := h.values _ _ trivial hd
  obtain ⟨cb, hi⟩ := h.origin.log _ hr
  obtain ⟨hsent, hfrom⟩ := request_issued hi
  exact ⟨c, hfrom.symm, hsent⟩

/-- Nobody sends a request to their own e-mail. -/
theorem toIdUser_ne (h : Traced email G s) {d : RequestDict}
    (hd : s.tree.lookup (.friendRequest k) = some d) : d.toIdUser.email ≠ email d.fromId := by
  obtain ⟨c, hr⟩ := h.values _ _ trivial hd
  obtain ⟨cb, hi⟩ := h.origin.log _ hr
  obtain ⟨ev, -, app, -, hi⟩ := issues_of_issued hi
  cases hi with
  | request hpeer => exact hpeer

/-- The completion of the sender's entry goes back to the press. -/
theorem sentBy_of_requestSend {log : List FEvent} {name : String} {ok : Bool}
    (ht : TaskOrigin (program email) G log ⟨c, .requestSend k t name, .acked ok⟩) :
    SentBy log c t k := by
  obtain ⟨op, hi, -⟩ := ht
  obtain ⟨ev, hev, app, -, hi⟩ := issues_of_issued hi
  cases hi with
  | requestIndex => exact ⟨_, _, hev, rfl, rfl⟩

/-- An index entry is written by the sender. -/
theorem between_of_index (h : Traced email G s) {n : ℕ} {cb : Option Cb}
    (hi : Issued (program email) G s.log c
      (.write (.update (.userFriendRequest u v k) n) cb)) : Between s.log u v k := by
  obtain ⟨ev, hev, app, -, hi⟩ := issues_of_issued hi
  cases hi with
  | requestIndex => exact .inl ⟨c, rfl, _, _, hev, rfl, rfl⟩
  | recipientIndex => exact .inr ⟨c, rfl, sentBy_of_requestSend (h.origin.log _ hev)⟩

theorem between_of_written (h : Traced email G s) (hw : Written s.log (.userFriendRequest u v k)) :
    Between s.log u v k := by
  obtain ⟨c, n, hr⟩ := hw
  obtain ⟨cb, hi⟩ := h.origin.log _ hr
  exact h.between_of_index hi

/-! ## Accepts -/

/-- A friendship is known by its key. -/
theorem acceptedBy_unique (h : Traced email G s) {c' : Client} {f' : UID}
    (hk : AcceptedBy s.log c f k) (hk' : AcceptedBy s.log c' f' k) : c = c' ∧ f = f' := by
  obtain ⟨peer, e, hev, rfl, rfl⟩ := hk
  obtain ⟨peer', e', hev', rfl, hkey⟩ := hk'
  have := h.keys.event_eq hev hev' rfl (congrArg some hkey)
  cases this
  exact ⟨rfl, rfl⟩

theorem accepted_unique (h : Traced email G s) {f' t' : UID} (hk : Accepted s.log f t k)
    (hk' : Accepted s.log f' t' k) : f = f' ∧ t = t' := by
  obtain ⟨c, rfl, hk⟩ := hk
  obtain ⟨c', rfl, hk'⟩ := hk'
  obtain ⟨rfl, rfl⟩ := h.acceptedBy_unique hk hk'
  exact ⟨rfl, rfl⟩

/-- The completion of the accepting side's entry goes back to the press. -/
theorem acceptedBy_of_userFriendAdded {log : List FEvent} {name : String} {ok : Bool}
    (ht : TaskOrigin (program email) G log ⟨c, .userFriendAdded k f name, .acked ok⟩) :
    AcceptedBy log c f k := by
  obtain ⟨op, hi, -⟩ := ht
  obtain ⟨ev, hev, app, -, hi⟩ := issues_of_issued hi
  cases hi with
  | friendIndex => exact ⟨_, _, hev, rfl, rfl⟩

/-- An outer observer goes back to an accept. -/
theorem accepted_of_outer (h : Traced email G s) {p : Path} {name : String}
    (hi : Issued (program email) G s.log c (.ask (.childAdded p (.removeOuter t f name)))) :
    ∃ a, Accepted s.log f t a := by
  obtain ⟨ev, hev, app, -, hi⟩ := issues_of_issued hi
  cases hi with
  | outer =>
    obtain ⟨op, hi, -⟩ := h.origin.log _ hev
    obtain ⟨ev, hev, app, -, hi⟩ := issues_of_issued hi
    cases hi with
    | recipientFriendIndex =>
      exact ⟨_, c, rfl, acceptedBy_of_userFriendAdded (h.origin.log _ hev)⟩

/-- So does an inner observer. -/
theorem accepted_of_inner (h : Traced email G s) {p : Path} {name : String}
    (hi : Issued (program email) G s.log c (.ask (.childAdded p (.removeInner t f name)))) :
    ∃ a, Accepted s.log f t a := by
  obtain ⟨ev, hev, app, -, hi⟩ := issues_of_issued hi
  cases hi with
  | inner =>
    obtain ⟨p, -, -, -, hi, -, -⟩ := h.origin.log _ hev
    exact h.accepted_of_outer hi

/-! ## The press of a key -/

theorem pressed_unique (h : Traced email G s) {c' : Client} (hk : PressedBy s.log c k)
    (hk' : PressedBy s.log c' k) : c = c' := by
  obtain ⟨a, e, hev, ha, rfl⟩ := hk
  obtain ⟨a', e', hev', ha', hkey⟩ := hk'
  have := h.keys.event_eq hev hev' rfl (congrArg some hkey)
  cases this
  rw [ha] at ha'
  exact Option.some.inj ha'

/-- Everything that is written under a key is written by the client that drew it. -/
theorem pressedBy_of_update (h : Traced email G s) {l : Loc} {v : Val l} {cb : Option Cb}
    (hi : Issued (program email) G s.log c (.write (.update l v) cb)) :
    PressedBy s.log c l.key := by
  obtain ⟨ev, hev, app, -, hi⟩ := issues_of_issued hi
  cases hi with
  | request | requestIndex | friend | friendIndex => exact ⟨_, _, hev, rfl, rfl⟩
  | recipientIndex =>
    obtain ⟨peer, e, hev, -, hkey⟩ := sentBy_of_requestSend (h.origin.log _ hev)
    exact ⟨_, e, hev, rfl, hkey⟩
  | recipientFriendIndex =>
    obtain ⟨peer, e, hev, -, hkey⟩ := acceptedBy_of_userFriendAdded (h.origin.log _ hev)
    exact ⟨_, e, hev, rfl, hkey⟩

/-- A fresh key was not drawn by a press. -/
theorem not_pressedBy_of_fresh (h : Traced email G s) (hk : k ∉ s.issued) :
    ¬ PressedBy s.log c k := by
  rintro ⟨a, e, hev, -, rfl⟩
  exact hk (h.keys.issued _ hev e.key rfl)

end Traced

namespace Facts

variable {c : Client} {f t u v : UID} {k : String}

/-! ## Sends -/

/-- The completion of the sender's entry goes back to the press, and the entry is there. -/
theorem sentBy_of_requestSend (h : Facts email G s) {name : String} {ok : Bool}
    (ht : TaskOrigin (program email) G s.log ⟨c, .requestSend k t name, .acked ok⟩) :
    SentBy s.log c t k ∧ Written s.log (.userFriendRequest c.uid t k) := by
  obtain ⟨op, hi, hr⟩ := ht
  obtain ⟨ev, hev, app, -, hi⟩ := issues_of_issued hi
  cases hi with
  | requestIndex =>
    obtain rfl : ok = true := by
      cases ok with
      | true => rfl
      | false => exact absurd (h.rejected _ _ hr) (by simp [Friendship])
    exact ⟨⟨_, _, hev, rfl, rfl⟩, ⟨c, _, hr⟩⟩

/-! ## Removals -/

/-- An event of an inner observer is about an entry that was written where the observer watches. -/
theorem observer_of_removeInner (h : Facts email G s) {name : String}
    (hdue : Due s ⟨c, .removeInner t f name, .childAdded k⟩) :
    ⟨c, friendRequestsWith f t, .removeInner t f name⟩ ∈ s.childObs ∧
      Written s.log (.userFriendRequest f t k) := by
  constructor
  · obtain ⟨p, ho⟩ := h.attached _ _ _ hdue
    have hi : Issued (program email) G s.log c (.ask (.childAdded p (.removeInner t f name))) :=
      h.origin.childObs _ ho
    obtain ⟨ev, -, app, -, hi⟩ := issues_of_issued hi
    cases hi with
    | inner => exact ho
  · obtain ⟨p, l, c', n, hi, hr, hk⟩ := h.origin.due hdue
    obtain ⟨ev, -, app, -, hi⟩ := issues_of_issued hi
    cases hi with
    | inner =>
      obtain rfl := childKey_friendRequestsWith.1 hk
      exact ⟨c', n, hr⟩

/-- An inner observer goes back to an accept. -/
theorem accepted_of_removeInner (h : Facts email G s) {name : String}
    (hdue : Due s ⟨c, .removeInner t f name, .childAdded k⟩) : ∃ a, Accepted s.log f t a := by
  obtain ⟨p, -, -, -, hi, -, -⟩ := h.origin.due hdue
  exact h.accepted_of_inner hi

/-- What is removed is removed by an event of an inner observer: the record that the event names,
or one of the two index subtrees. -/
theorem remove_issued {log : List FEvent} {p : Path} {cb : Option Cb}
    (hi : Issued (program email) G log c (.write (.remove p) cb)) :
    ∃ t f name k e, .ran ⟨c, .removeInner t f name, .childAdded k⟩ e ∈ log ∧
      (p = ["friend_request", k] ∨ p = friendRequestsWith t f ∨ p = friendRequestsWith f t) := by
  obtain ⟨ev, hev, app, -, hi⟩ := issues_of_issued hi
  cases hi with
  | removeRequest => exact ⟨_, _, _, _, _, hev, .inl rfl⟩
  | removeIndex => exact ⟨_, _, _, _, _, hev, .inr (.inl rfl)⟩
  | removeSenderIndex => exact ⟨_, _, _, _, _, hev, .inr (.inr rfl)⟩

/-- A record is removed by an event about its own key. -/
theorem removeRequest_issued {log : List FEvent} {p : Path} {cb : Option Cb}
    (hi : Issued (program email) G log c (.write (.remove p) cb))
    (hp : p <+: path (Loc.friendRequest k)) :
    ∃ t f name e, .ran ⟨c, .removeInner t f name, .childAdded k⟩ e ∈ log := by
  obtain ⟨t, f, name, k', e, hev, rfl | rfl | rfl⟩ := remove_issued hi
  · cases friendRequest_below.1 hp
    exact ⟨t, f, name, e, hev⟩
  · obtain ⟨k'', he⟩ := friendRequestsWith_below.1 hp
    cases he
  · obtain ⟨k'', he⟩ := friendRequestsWith_below.1 hp
    cases he

/-- An entry is removed with its whole subtree, by an event of an inner observer of the pair. -/
theorem removeIndex_issued {log : List FEvent} {p : Path} {cb : Option Cb}
    (hi : Issued (program email) G log c (.write (.remove p) cb))
    (hp : p <+: path (Loc.userFriendRequest u v k)) :
    p = friendRequestsWith u v ∧ ∃ t f name k' e,
      .ran ⟨c, .removeInner t f name, .childAdded k'⟩ e ∈ log ∧
        (f = u ∧ t = v ∨ f = v ∧ t = u) := by
  obtain ⟨t, f, name, k', e, hev, rfl | rfl | rfl⟩ := remove_issued hi
  · cases friendRequest_below.1 hp
  · obtain ⟨k'', he⟩ := friendRequestsWith_below.1 hp
    cases he
    exact ⟨rfl, _, _, name, k', e, hev, .inr ⟨rfl, rfl⟩⟩
  · obtain ⟨k'', he⟩ := friendRequestsWith_below.1 hp
    cases he
    exact ⟨rfl, _, _, name, k', e, hev, .inl ⟨rfl, rfl⟩⟩

/-- Nothing removes a friendship. -/
theorem not_remove_friendship {log : List FEvent} {p : Path} {cb : Option Cb}
    (hi : Issued (program email) G log c (.write (.remove p) cb)) {l : Loc} {v : Val l}
    (hl : Friendship (.update l v) = true) : ¬ p <+: path l := by
  intro hp
  obtain ⟨t, f, name, k, e, -, rfl | rfl | rfl⟩ := remove_issued hi
  · obtain rfl := friendRequest_below.1 hp
    cases hl
  · obtain ⟨k', rfl⟩ := friendRequestsWith_below.1 hp
    cases hl
  · obtain ⟨k', rfl⟩ := friendRequestsWith_below.1 hp
    cases hl

theorem friendship_kept (h : Facts email G s) {l : Loc} {v : Val l}
    (hl : Friendship (.update l v) = true) (hw : Written s.log l) : l ∈ s.tree := by
  obtain ⟨c, v', hr⟩ := hw
  rcases h.kept c l v' hr with hmem | ⟨c', p, hr, hp⟩
  · exact hmem
  · obtain ⟨cb, hi⟩ := h.origin.log _ hr
    exact absurd hp (not_remove_friendship hi hl)

end Facts

end FLChat.Friends
