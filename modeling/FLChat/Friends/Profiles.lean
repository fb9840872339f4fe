import FLChat.Friends.Requests

/-!
# Whom the lists show

A record embeds what its sender knew of the two users. Where every client has loaded its own profile
before it sends or accepts, the embedded users have the e-mails of their accounts (`Genuine`). The
incoming list leaves out the e-mail of the signed-in user, so whoever is accepted is somebody else
(`strangers_of_reaches`), and a friends record names two different accounts (`friend_genuine`).
-/

namespace FLChat.Friends

open Realtime

variable {email : UID → String} {G : Guard Loc Client Cb Unit App Action} {s₀ s s' : FState}
  {l : FLabel} {c : Client} {call : Call} {k : String}

/-! ## The reads of a list -/

/-- The entry names the record `k` in the index that a list of `uid` observes. -/
def FriendList.Names (list : FriendList) (uid : UID) (k : String) (entry : Loc) : Prop :=
  match list with
  | .friends => entry = .userFriends uid k
  | .sent | .incoming => ∃ peer, entry = .userFriendRequest uid peer k

theorem FriendList.names_of_ne {list : FriendList} (hlist : list ≠ .friends) {uid peer : UID} :
    list.Names uid k (.userFriendRequest uid peer k) := by
  cases list with
  | friends => exact absurd rfl hlist
  | incoming | sent => exact ⟨peer, rfl⟩

/-- The record was read before, and the list shows this side of it. -/
inductive ReadSide (log : List FEvent) (c : Client) (call : Call) : Loc → Side → Prop
  | friends {k : String} {dict : Option FriendDict} {e : Env} {side : Side}
    (hev : .ran ⟨c, .recordRead call, .value (.friends k) dict⟩ e ∈ log)
    (hside : shownSide c call.list dict = some side) : ReadSide log c call (.friends k) side
  | friendRequest {k : String} {dict : Option RequestDict} {e : Env} {side : Side}
    (hev : .ran ⟨c, .recordRead call, .value (.friendRequest k) dict⟩ e ∈ log)
    (hside : shownSide c call.list none = some side) : ReadSide log c call (.friendRequest k) side

namespace Traced

/-- The lists of requests observe more indexes, the list of friends does not. -/
theorem list_of_peerAdded {log : List FEvent} {p : Path}
    (hi : Issued (program email) G log c (.ask (.childAdded p (.peerAdded call)))) :
    call.client = c ∧ call.list ≠ .friends := by
  obtain ⟨ev, -, app, -, hi⟩ := issues_of_issued hi
  cases hi with
  | searchRequests hlist => exact ⟨rfl, hlist⟩

/-- A list of friends observes the index of its user, since it was opened, and a list of requests
the index of its user with a peer. -/
theorem entryAdded_issued (h : Traced email G s) {p : Path}
    (hi : Issued (program email) G s.log c (.ask (.childAdded p (.entryAdded call)))) :
    call.client = c ∧ (call.list = .friends ∧ p = ["user_friends", c.uid] ∨
      call.list ≠ .friends ∧ ∃ peer, p = friendRequestsWith c.uid peer) := by
  obtain ⟨ev, hev, app, -, hi⟩ := issues_of_issued hi
  cases hi with
  | searchFriends => exact ⟨rfl, .inl ⟨rfl, rfl⟩⟩
  | peerEntries =>
    obtain ⟨p, -, -, -, hi, -⟩ := h.origin.log _ hev
    obtain ⟨hc, hlist⟩ := list_of_peerAdded hi
    exact ⟨hc, .inr ⟨hlist, _, rfl⟩⟩

theorem recordRead_of_single {log : List FEvent} {l : Loc} {cb : Cb}
    (hi : Issued (program email) G log c (.ask (.single l cb))) : ∃ call, cb = .recordRead call := by
  obtain ⟨ev, -, app, -, hi⟩ := issues_of_issued hi
  cases hi with
  | readRecord => exact ⟨_, rfl⟩

theorem userRead_of_value {log : List FEvent} {l : Loc} {cb : Cb}
    (hi : Issued (program email) G log c (.ask (.value l cb))) :
    ∃ call side, cb = .userRead call side := by
  obtain ⟨ev, -, app, -, hi⟩ := issues_of_issued hi
  cases hi with
  | readFriend | readRequest => exact ⟨_, _, rfl⟩

/-- A record is read for an entry of its index. -/
theorem recordRead_issued (h : Traced email G s) {l : Loc}
    (hi : Issued (program email) G s.log c (.ask (.single l (.recordRead call)))) :
    ∃ k, l = call.list.record k ∧ call.client = c ∧
      ∃ entry, call.list.Names c.uid k entry ∧ Written s.log entry := by
  obtain ⟨ev, hev, app, -, hi⟩ := issues_of_issued hi
  cases hi with
  | readRecord =>
    obtain ⟨p, l, c', n, hi, hr, hk⟩ := h.origin.log _ hev
    obtain ⟨hc, ⟨hlist, rfl⟩ | ⟨hlist, peer, rfl⟩⟩ := h.entryAdded_issued hi
    · obtain rfl := childKey_userFriends.1 hk
      refine ⟨_, rfl, hc, _, ?_, c', n, hr⟩
      rw [hlist]
      rfl
    · obtain rfl := childKey_friendRequestsWith.1 hk
      exact ⟨_, rfl, hc, _, FriendList.names_of_ne hlist, c', n, hr⟩

theorem recordRead_of_reply (h : Traced email G s) {l : Loc} {v : Option (Val l)}
    (ht : TaskOrigin (program email) G s.log ⟨c, .recordRead call, .value l v⟩) :
    ∃ k, l = call.list.record k ∧ call.client = c ∧
      ∃ entry, call.list.Names c.uid k entry ∧ Written s.log entry := by
  rcases ht with hi | hi
  · exact h.recordRead_issued hi
  · obtain ⟨call', side, he⟩ := userRead_of_value hi
    cases he

/-- A user is read for a record that was read before, on the side that the list shows. -/
theorem userRead_issued {log : List FEvent} {l : Loc} {side : Side}
    (hi : Issued (program email) G log c (.ask (.value l (.userRead call side)))) :
    ReadSide log c call l side := by
  obtain ⟨ev, hev, app, -, hi⟩ := issues_of_issued hi
  cases hi with
  | readFriend hside => exact .friends hev hside
  | readRequest hside => exact .friendRequest hev hside

theorem userRead_of_reply {log : List FEvent} {l : Loc} {side : Side} {v : Option (Val l)}
    (ht : TaskOrigin (program email) G log ⟨c, .userRead call side, .value l v⟩) :
    ReadSide log c call l side := by
  rcases ht with hi | hi
  · obtain ⟨call', he⟩ := recordRead_of_single hi
    cases he
  · exact userRead_issued hi

/-- The incoming list shows the sender of a request that its user's index names. -/
theorem incoming_of_userRead (h : Traced email G s) {l : Loc} {side : Side} {v : Option (Val l)}
    (ht : TaskOrigin (program email) G s.log ⟨c, .userRead call side, .value l v⟩)
    (hlist : call.list = .incoming) :
    side = .fromIdUser ∧ call.client = c ∧ ∃ k peer, l = .friendRequest k ∧
      Between s.log c.uid peer k := by
  cases userRead_of_reply ht with
  | friends hev =>
    obtain ⟨k', he, -⟩ := h.recordRead_of_reply (h.origin.log _ hev)
    rw [hlist] at he
    cases he
  | @friendRequest k dict e side hev hside =>
    obtain ⟨k', he, hc, entry, hentry, hw⟩ := h.recordRead_of_reply (h.origin.log _ hev)
    rw [hlist] at hside he hentry
    cases hside
    cases he
    obtain ⟨peer, rfl⟩ : ∃ peer, entry = .userFriendRequest c.uid peer k := hentry
    exact ⟨rfl, hc, k, peer, rfl, h.between_of_written hw⟩

end Traced

/-! ## What the incoming lists show -/

/-- Everything that the incoming lists show meets `Q`. -/
structure Shown (Q : Client → Users → Prop) (app : App) : Prop where
  arrayUsers : ∀ call, call.list = .incoming → ∀ x ∈ app.arrayUsers call, Q call.client x
  usersArray : ∀ c, ∀ x ∈ app.usersArray c .incoming, Q c x
  selected : ∀ c, ∀ x ∈ app.selected c, Q c x

namespace Shown

variable {Q Q' : Client → Users → Prop} {app app' : App}

theorem of_fresh (h : app.Fresh) : Shown Q app where
  arrayUsers call _ x hx := by simp [h.arrayUsers] at hx
  usersArray c x hx := by simp [h.usersArray] at hx
  selected c x hx := by simp [h.selected] at hx

theorem mono (hQ : ∀ c x, Q c x → Q' c x) (h : Shown Q app) : Shown Q' app where
  arrayUsers call hlist x hx := hQ _ _ (h.arrayUsers call hlist x hx)
  usersArray c x hx := hQ _ _ (h.usersArray c x hx)
  selected c x hx := hQ _ _ (h.selected c x hx)

theorem deliver (h : Shown Q app) {users : Users}
    (husers : call.list = .incoming → Q call.client users) : Shown Q (app.deliver call users) where
  arrayUsers call' hlist x hx := by
    simp only [App.deliver] at hx
    split at hx
    · next hc =>
      subst hc
      rcases List.mem_append.1 hx with hx | hx
      · exact h.arrayUsers _ hlist x hx
      · rw [List.mem_singleton.1 hx]
        exact husers hlist
    · exact h.arrayUsers _ hlist x hx
  usersArray c x hx := by
    simp only [App.deliver] at hx
    split at hx
    · next hc =>
      obtain ⟨rfl, hlist⟩ := hc
      rcases List.mem_append.1 hx with hx | hx
      · exact h.arrayUsers _ hlist.symm x hx
      · rw [List.mem_singleton.1 hx]
        exact husers hlist.symm
    · exact h.usersArray c x hx
  selected := h.selected

theorem userRead (h : Shown Q app) {user : Option UserParams}
    (huser : call.list = .incoming → ∀ x ∈ user,
      matchesQuery call.query x.email (email call.client.uid) = true → Q call.client x.users) :
    Shown Q (userRead email call user app) := by
  unfold FLChat.Friends.userRead
  split
  · exact h
  · next user =>
    split
    · next hmatch =>
      refine h.deliver fun hlist => ?_
      rw [hlist]
      exact huser hlist user rfl hmatch
    · exact h

theorem handle (h : Shown Q app) {cb : Cb} {input : Input Loc}
    (hread : ∀ call side k d, cb = .userRead call side → input = .value (.friendRequest k) (some d) →
      call.list = .incoming →
      matchesQuery call.query (d.side side).email (email call.client.uid) = true →
      Q call.client (d.side side).users)
    (hfriends : ∀ call side k v, cb = .userRead call side → input = .value (.friends k) v →
      call.list ≠ .incoming) : Shown Q (handle email c cb input app).1 := by
  unfold FLChat.Friends.handle
  split
  · exact ⟨h.arrayUsers, h.usersArray, h.selected⟩
  · exact h
  · exact h
  · exact h
  · exact ⟨h.arrayUsers, h.usersArray, h.selected⟩
  · exact h
  · exact h
  · exact h
  · exact h
  · next call side k v =>
    exact h.userRead fun hlist => absurd hlist (hfriends call side k v rfl rfl)
  · next call side k v =>
    refine h.userRead fun hlist x hx => ?_
    obtain ⟨d, rfl, rfl⟩ := Option.map_eq_some_iff.1 hx
    exact hread call side k d rfl rfl hlist
  · exact h

theorem act (h : Shown Q app) {a : Action} {e : Env} {cmds : List Command}
    (hact : act email a e app = some (c, app', cmds)) : Shown Q app' := by
  cases pressed_of_act hact with
  | send | accept | search => exact h
  | select husers =>
    refine ⟨h.arrayUsers, h.usersArray, fun c'' x hx => ?_⟩
    simp only at hx
    split at hx
    · next hc =>
      subst hc
      cases hx
      exact h.usersArray _ _ (List.mem_of_getElem? husers)
    · exact h.selected c'' x hx
  | load => exact ⟨h.arrayUsers, h.usersArray, h.selected⟩

/-- Where the senders that are read meet `Q`, everything that is shown meets it. -/
theorem of_reaches {ok : FState → FLabel → Prop} {Q : List FEvent → Client → Users → Prop}
    (hs : Start s₀) (hok : ∀ s l, ok s l → Proceeds s l)
    (hQ : ∀ ev log c x, Q log c x → Q (ev :: log) c x)
    (hread : ∀ t, Reaches (step (program email)) ok s₀ t → ∀ call k d,
      ⟨call.client, .userRead call .fromIdUser, .value (.friendRequest k) (some d)⟩ ∈ t.tasks →
      call.list = .incoming →
      matchesQuery call.query d.fromIdUser.email (email call.client.uid) = true →
      Q t.log call.client d.fromIdUser.users)
    (h : Reaches (step (program email)) ok s₀ s) : Shown (Q s.log) s.app := by
  refine h.invariant_of_reached (I := fun s => Shown (Q s.log) s.app) (of_fresh hs.app)
    fun {t l u} ht ih hl hstep => ?_
  have hf := facts_of_reaches hs hok ht
  obtain ⟨ev, hlog⟩ := (transition_of_step hstep).log_cons
  have grow : ∀ {app}, Shown (Q t.log) app → Shown (Q u.log) app := fun h =>
    h.mono fun c x hx => by
      rw [hlog]
      exact hQ ev _ c x hx
  cases transition_of_step hstep with
  | press _ hact => exact grow (ih.act hact)
  | @run i e task app cmds _ htask hrun =>
    have hmem := List.mem_of_getElem? htask
    obtain ⟨c, cb, input⟩ := task
    refine grow ?_
    rw [State.ran_app, show app = (FLChat.Friends.handle email c cb input t.app).1 from
      (congrArg Prod.fst hrun).symm]
    refine ih.handle (fun call side k d hcb hinput hlist hmatch => ?_)
      fun call side k v hcb hinput hlist => ?_
    · subst hcb
      subst hinput
      obtain ⟨rfl, rfl, -⟩ := hf.incoming_of_userRead (hf.origin.tasks _ hmem) hlist
      exact hread t ht call k d hmem hlist hmatch
    · subst hcb
      subst hinput
      obtain ⟨-, -, k', peer, he, -⟩ := hf.incoming_of_userRead (hf.origin.tasks _ hmem) hlist
      cases he
  | apply | reject | serve => exact grow ih
  | die => exact (hok _ _ hl).elim

end Shown

/-! ## Profiles -/

/-- Every client has loaded its profile when it sends or accepts. -/
def Loaded (email : UID → String) : Guard Loc Client Cb Unit App Action
  | .pressed a _, app => ∀ c ∈ a.sender, (app.user c).email = email c.uid
  | _, _ => True

/-- The steps of a run in which every write succeeds and every client has loaded its profile before
it sends or accepts. -/
def Loads (email : UID → String) (s : FState) : FLabel → Prop
  | .press a _ => ∀ c ∈ a.sender, (s.app.user c).email = email c.uid
  | l => Succeeds s l

instance (s : FState) : DecidablePred (Loads email s)
  | .press a _ => inferInstanceAs (Decidable (∀ c ∈ a.sender, (s.app.user c).email = email c.uid))
  | .run i e => inferInstanceAs (Decidable (Succeeds s (.run i e)))
  | .commit i ok => inferInstanceAs (Decidable (Succeeds s (.commit i ok)))
  | .serve i ok => inferInstanceAs (Decidable (Succeeds s (.serve i ok)))
  | .die c => inferInstanceAs (Decidable (Succeeds s (.die c)))

theorem Loads.succeeds (h : Loads email s l) : Succeeds s l := by
  cases l with
  | press => trivial
  | run | commit | serve | die => exact h

theorem Loads.loaded (h : Loads email s l) : (Loaded email).Holds s l := by
  cases l with
  | press => exact h
  | run => exact fun _ _ => trivial
  | commit | serve | die => trivial

theorem loaded_of_reaches (hs : Start s₀) (h : Reaches (step (program email)) (Loads email) s₀ s) :
    Facts email (Loaded email) s :=
  .of_reaches hs (fun _ _ hl => hl.succeeds.proceeds) (fun _ hl => hl.loaded) h

/-- The embedded user is the account `uid`, with its e-mail. -/
def Genuine (email : UID → String) (uid : UID) (user : UserParams) : Prop :=
  user.uid = uid ∧ user.email = email uid

theorem request_genuine {log : List FEvent} {d : RequestDict} {cb : Option Cb}
    (hi : Issued (program email) (Loaded email) log c (.write (.update (.friendRequest k) d) cb)) :
    Genuine email d.fromId d.fromIdUser := by
  obtain ⟨ev, -, app, hloaded, hi⟩ := issues_of_issued hi
  cases hi with
  | request => exact ⟨rfl, hloaded c rfl⟩

/-- The entry shows another account than the one signed in on `c`, with its e-mail. -/
def Stranger (email : UID → String) (c : Client) (users : Users) : Prop :=
  ∃ uid, users.userId = some uid ∧ users.userEmail = email uid ∧ users.userEmail ≠ email c.uid

/-- The incoming lists show other accounts than the one signed in. -/
structure Strangers (email : UID → String) (app : App) : Prop where
  arrayUsers : ∀ call, call.list = .incoming → ∀ x ∈ app.arrayUsers call,
    Stranger email call.client x
  usersArray : ∀ c, ∀ x ∈ app.usersArray c .incoming, Stranger email c x
  selected : ∀ c, ∀ x ∈ app.selected c, Stranger email c x

theorem ne_of_matchesQuery {query mail own : String} (h : matchesQuery query mail own = true) :
    mail ≠ own := by
  unfold matchesQuery at h
  split at h
  · exact of_decide_eq_true h
  · exact of_decide_eq_true (Bool.and_eq_true_iff.1 h).2

/-- The value of a request that is read was issued. -/
theorem request_of_reply (hs : Start s₀) (h : Reaches (step (program email)) (Loads email) s₀ s)
    {cb : Cb} {d : RequestDict} (hdue : Due s ⟨c, cb, .value (.friendRequest k) (some d)⟩) :
    ∃ c' cb', Issued (program email) (Loaded email) s.log c'
      (.write (.update (.friendRequest k) d) cb') :=
  issued_of_reply hs.initial (fun _ _ => rfl) (fun _ hu => (loaded_of_reaches hs hu).origin)
    (fun _ hu => (loaded_of_reaches hs hu).values) h hdue

theorem strangers_of_reaches (hs : Start s₀)
    (h : Reaches (step (program email)) (Loads email) s₀ s) : Strangers email s.app := by
  have hshown : Shown (Stranger email) s.app := by
    refine Shown.of_reaches (Q := fun _ => Stranger email) hs (fun _ _ hl => hl.succeeds.proceeds)
      (fun _ _ _ _ hx => hx) (fun t ht call k d hmem hlist hmatch => ?_) h
    obtain ⟨c', cb', hi⟩ := request_of_reply hs ht (.inl hmem)
    have hgenuine := request_genuine hi
    exact ⟨_, rfl, hgenuine.2.trans (congrArg email hgenuine.1.symm), ne_of_matchesQuery hmatch⟩
  exact ⟨hshown.arrayUsers, hshown.usersArray, hshown.selected⟩

/-! ## Friends -/

/-- What holds whenever something is pressed or runs. -/
def Known (email : UID → String) : Guard Loc Client Cb Unit App Action := fun ev app =>
  Loaded email ev app ∧ Strangers email app

theorem known_of_reaches (hs : Start s₀)
    (h : Reaches (step (program email)) (Loads email) s₀ s) : Facts email (Known email) s := by
  refine .of_reaches hs (fun _ _ hl => hl.succeeds.proceeds) (fun {t l} ht hl => ?_) h
  have hstrangers := strangers_of_reaches hs ht
  cases l with
  | press => exact ⟨hl, hstrangers⟩
  | run => exact fun _ _ => ⟨trivial, hstrangers⟩
  | commit | serve | die => trivial

/-- The record is about two different accounts, as they are. -/
structure GenuineFriends (email : UID → String) (d : FriendDict) : Prop where
  fromIdUser : Genuine email d.fromId d.fromIdUser
  toIdUser : Genuine email d.toId d.toIdUser
  ne : d.fromId ≠ d.toId

theorem friend_genuine {log : List FEvent} {d : FriendDict} {cb : Option Cb}
    (hi : Issued (program email) (Known email) log c (.write (.update (.friends k) d) cb)) :
    GenuineFriends email d := by
  obtain ⟨ev, -, app, ⟨hloaded, hstrangers⟩, hi⟩ := issues_of_issued hi
  cases hi with
  | friend hpeer =>
    obtain ⟨uid, hid, hemail, hne⟩ := hstrangers.selected _ _ hpeer
    cases hid
    exact ⟨⟨rfl, hemail⟩, ⟨rfl, hloaded c rfl⟩, fun he => hne (hemail.trans (congrArg email he))⟩

end FLChat.Friends
