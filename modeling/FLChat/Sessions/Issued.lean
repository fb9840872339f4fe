import FLChat.Sessions.Model

/-!
# What a device writes and remembers

`Wrote` lists the writes of the program with the event that issues each, `Awaited` the callbacks,
and `Extends` says what a step leaves of the memory of a device. Only two kinds of steps change the
session or the singleton: the presses that sign in or out (`pressed_of_press`), and the reply of
`getUserCredentialsFromDatabase` (`called_of_callback`).
-/

namespace FLChat.Sessions

open Realtime
open FLChat.Messages (Data)
open FLChat.Accounts (UID Dict Device)
open FLChat.Friends (Call FriendList Side UserParams Users RequestDict FriendDict)

variable {P : Platform} {c c' : Client} {app app' : App} {cmds : List Command} {op : Op Loc}
  {completion : Option Cb} {x : Users} {new new' : Users → Prop}

/-! ## Writes -/

/-- The entries that name a record. -/
def IsIndex : Friends.Loc → Prop
  | .userFriendRequest .. | .userFriends .. => True
  | .friendRequest _ | .friends _ => False

/-- The writes of the program, with the event and the memory in which it issues them. -/
inductive Wrote (P : Platform) (app : App) : SEvent → Op Loc → Prop
  | edit {c p e uid dict} (hu : app.currentUser c = some uid)
    (hdict : Accounts.Press.dict p = some dict) :
    Wrote P app (.pressed ⟨c, .account p⟩ e) (.update .users (Directory.single uid dict))
  | registration {c uid email url input e} :
    Wrote P app (.ran ⟨c, .account (.urlFetched uid email), input⟩ e)
      (.update .users (Directory.single uid (Accounts.userData email (app.device c).user.phone
        (app.device c).user.name (P.absoluteString url) (app.device c).user.online
        (app.device c).user.notificationOn (app.device c).user.notificationSoundOn)))
  | picture {c uid url cb input e} :
    Wrote P app (.ran ⟨c, cb, input⟩ e)
      (.update .users (Directory.single uid (Accounts.changeUserImage (P.absoluteString url))))
  | request {c e uid users peer} (hu : app.currentUser c = some uid)
    (hchosen : app.chosen c = some users) (hpeer : paramsOf users = some peer) :
    Wrote P app (.pressed ⟨c, .sendFrienRequestBtnPressed⟩ e) (.update (.friend (.friendRequest e.key))
      (⟨uid, params uid (app.device c).user, peer.uid, peer, e.now, "Hi! I want to be your friend",
        false⟩ : RequestDict))
  | friend {c e uid users peer} (hu : app.currentUser c = some uid)
    (hselected : app.selected c = some users) (hpeer : paramsOf users = some peer) :
    Wrote P app (.pressed ⟨c, .addUsertoFriendsBtnPressed⟩ e) (.update (.friend (.friends e.key))
      (⟨peer.uid, peer, uid, params uid (app.device c).user, e.now, true⟩ : FriendDict))
  | index {ev l v} (hl : IsIndex l) : Wrote P app ev (.update (.friend l) v)
  | remove {ev p} (hp : p.isPrefixOf ["users"] = false) : Wrote P app ev (.remove p)

/-- A write of the accounts. -/
def accountOp : Op Accounts.Loc → Op Loc
  | .update (.users uid) userData => .update .users (Directory.single uid userData)
  | .remove p => .remove p

/-- A write of the friends. -/
def friendOp : Op Friends.Loc → Op Loc
  | .update l v => .update (.friend l) v
  | .remove p => .remove p

/-- The write is of an entry, or it removes something that is no profile. -/
def IsMinor : Op Friends.Loc → Prop
  | .update l _ => IsIndex l
  | .remove p => p.isPrefixOf ["users"] = false

theorem write_of_accountCommands {cmds : List Accounts.Command}
    (h : .write op completion ∈ cmds.map accountCommand) :
    ∃ op' completion', .write op' completion' ∈ cmds ∧ op = accountOp op' := by
  obtain ⟨cmd, hcmd, he⟩ := List.mem_map.1 h
  cases cmd with
  | write op' completion' =>
    refine ⟨op', completion', hcmd, ?_⟩
    cases op' <;> cases he <;> rfl
  | ask a => cases a <;> cases he

theorem write_of_friendCommands {uid : UID} {cmds : List Friends.Command}
    (h : .write op completion ∈ friendCommands uid cmds) :
    ∃ op' completion', .write op' completion' ∈ cmds ∧ op = friendOp op' := by
  obtain ⟨cmd, hcmd, he⟩ := List.mem_filterMap.1 h
  cases cmd with
  | write op' completion' =>
    refine ⟨op', completion', hcmd, ?_⟩
    cases op' <;> cases he <;> rfl
  | ask a => cases a <;> cases he

theorem wrote_of_isMinor {op : Op Friends.Loc} {ev : SEvent} (h : IsMinor op) :
    Wrote P app ev (friendOp op) := by
  cases op with
  | update l v => exact .index h
  | remove p => exact .remove h

theorem not_write_of_asks {uid : UID} {cmds : List Friends.Command}
    (hcmds : ∀ cmd ∈ cmds, ∃ a, cmd = .ask a) : .write op completion ∉ friendCommands uid cmds := by
  intro h
  obtain ⟨op', completion', hcmd, -⟩ := write_of_friendCommands h
  obtain ⟨a, ha⟩ := hcmds _ hcmd
  cases ha

theorem wrote_of_accountPress {p : Accounts.Press} {e : Env} {d : Device}
    {cmds : List Accounts.Command} (h : Accounts.press P.toPlatform p (app.device c) = some (d, cmds))
    (hcmd : .write op completion ∈ cmds.map accountCommand) :
    Wrote P app (.pressed ⟨c, .account p⟩ e) op := by
  obtain ⟨op', completion', hwrite, rfl⟩ := write_of_accountCommands hcmd
  obtain ⟨-, uid, dict, hu, hdict, rfl⟩ := Accounts.written_of_press h hwrite
  exact .edit hu hdict

/-- A press with a user that is shown. -/
theorem withPeer_eq {users : Users} {f : UID → Accounts.User → UserParams → List Friends.Command}
    (h : withPeer c users app f = (app', cmds)) :
    (app' = app ∧ ∃ uid peer, app.currentUser c = some uid ∧ paramsOf users = some peer ∧
      cmds = friendCommands uid (f uid (app.device c).user peer)) ∨
    (app' = app.trap c ∧ cmds = []) := by
  unfold withPeer at h
  split at h
  · next uid peer hu hpeer =>
    cases h
    exact .inl ⟨rfl, uid, peer, hu, hpeer, rfl⟩
  · cases h
    exact .inr ⟨rfl, rfl⟩

theorem searchList_writes {list : FriendList} {query : String} {e : Env}
    (h : searchList c list query e app = (app', cmds)) : .write op completion ∉ cmds := by
  unfold searchList at h
  split at h
  · split at h <;> cases h <;> exact List.not_mem_nil
  · cases h
    intro hcmd
    cases list <;> cases List.mem_singleton.1 hcmd

theorem wrote_of_press {p : Press} {e : Env} (h : press P c p e app = some (app', cmds))
    (hcmd : .write op completion ∈ cmds) : Wrote P app (.pressed ⟨c, p⟩ e) op := by
  cases p with
  | account p =>
    obtain ⟨⟨d, cmds'⟩, hpress, he⟩ := Option.map_eq_some_iff.1 h
    cases he
    exact wrote_of_accountPress hpress hcmd
  | getUsersFromDatabase query =>
    obtain ⟨-, he⟩ := Option.ite_none_left_eq_some.1 h
    cases he
    cases List.mem_singleton.1 hcmd
  | newFriendSelected i =>
    obtain ⟨-, he⟩ := Option.ite_none_left_eq_some.1 h
    obtain ⟨users, -, he⟩ := Option.map_eq_some_iff.1 he
    cases he
    cases hcmd
  | sendFrienRequestBtnPressed =>
    obtain ⟨-, he⟩ := Option.ite_none_left_eq_some.1 h
    obtain ⟨users, husers, he⟩ := Option.map_eq_some_iff.1 he
    rcases withPeer_eq he with ⟨-, uid, peer, hu, hpeer, rfl⟩ | ⟨-, rfl⟩
    · obtain ⟨op', completion', hwrite, rfl⟩ := write_of_friendCommands hcmd
      rcases List.mem_cons.1 hwrite with he | hwrite
      · cases he
        exact .request hu husers hpeer
      · cases List.mem_singleton.1 hwrite
        exact wrote_of_isMinor trivial
    · cases hcmd
  | search list query =>
    obtain ⟨-, he⟩ := Option.ite_none_left_eq_some.1 h
    exact (searchList_writes (Option.some.inj he) hcmd).elim
  | didSelectItemAt list i =>
    obtain ⟨-, he⟩ := Option.ite_none_left_eq_some.1 h
    obtain ⟨users, -, he⟩ := Option.map_eq_some_iff.1 he
    cases he
    cases hcmd
  | addUsertoFriendsBtnPressed =>
    obtain ⟨-, he⟩ := Option.ite_none_left_eq_some.1 h
    obtain ⟨users, husers, he⟩ := Option.map_eq_some_iff.1 he
    rcases withPeer_eq he with ⟨-, uid, peer, hu, hpeer, rfl⟩ | ⟨-, rfl⟩
    · obtain ⟨op', completion', hwrite, rfl⟩ := write_of_friendCommands hcmd
      rcases List.mem_cons.1 hwrite with he | hwrite
      · cases he
        exact .friend hu husers hpeer
      · cases List.mem_singleton.1 hwrite
        exact wrote_of_isMinor trivial
    · cases hcmd

theorem called_value {cb : Accounts.Cb} {l : Accounts.Loc} {value : Option (Val l)} {d d' : Device}
    {cmds : List Accounts.Command}
    (h : Accounts.Called P.toPlatform d cb (.value l value) d' cmds) : cmds = [] := by
  cases h <;> rfl

theorem wrote_of_accountCallback {cb : Accounts.Cb} {input : Input Accounts.Loc} {input' : Input Loc}
    {e : Env} (h : accountCallback P c cb input app = (app', cmds))
    (hcmd : .write op completion ∈ cmds) : Wrote P app (.ran ⟨c, .account cb, input'⟩ e) op := by
  cases h
  obtain ⟨op', completion', hwrite, rfl⟩ := write_of_accountCommands hcmd
  rcases Accounts.written_of_callback (c := c) rfl hwrite with ⟨uid, email, url, rfl, rfl⟩ |
    ⟨uid, url, -, -, rfl⟩
  · exact .registration
  · exact .picture

theorem wrote_of_friendCallback {uid : UID} {cb : Friends.Cb} {input : Input Loc} {ev : SEvent}
    (h : friendCallback P c uid cb input app = (app', cmds))
    (hcmd : .write op completion ∈ cmds) : Wrote P app ev op := by
  unfold friendCallback at h
  split at h
  · split at h
    · cases h
      cases hcmd
    · cases h
      obtain ⟨op', completion', hwrite, rfl⟩ := write_of_friendCommands hcmd
      cases List.mem_singleton.1 hwrite
      exact wrote_of_isMinor trivial
  · cases h
    obtain ⟨op', completion', hwrite, rfl⟩ := write_of_friendCommands hcmd
    cases List.mem_singleton.1 hwrite
    exact wrote_of_isMinor trivial
  · cases h
    exact (not_write_of_asks (by simp [Friends.removeFriendRequestsFromDatabase]) hcmd).elim
  · cases h
    exact (not_write_of_asks (by simp [Friends.removeOuter]) hcmd).elim
  · cases h
    obtain ⟨op', completion', hwrite, rfl⟩ := write_of_friendCommands hcmd
    simp only [Friends.removeInner, List.mem_cons, List.not_mem_nil, or_false] at hwrite
    rcases hwrite with he | he | he <;> cases he <;> exact wrote_of_isMinor rfl
  · cases h
    exact (not_write_of_asks (by simp) hcmd).elim
  · cases h
    exact (not_write_of_asks (by simp) hcmd).elim
  · cases h
    exact (not_write_of_asks (by simp) hcmd).elim
  · cases h
    exact (not_write_of_asks (by simp) hcmd).elim
  · cases h
    cases hcmd
  · cases h
    cases hcmd
  · cases h
    cases hcmd

theorem wrote_of_callback {cb : Cb} {input : Input Loc} {e : Env}
    (h : callback P c cb input app = (app', cmds)) (hcmd : .write op completion ∈ cmds) :
    Wrote P app (.ran ⟨c, cb, input⟩ e) op := by
  unfold callback at h
  split at h
  · cases h
    cases hcmd
  split at h
  · exact wrote_of_accountCallback h hcmd
  · exact wrote_of_accountCallback h hcmd
  · cases h
    rw [called_value (Accounts.called_of_callback rfl)] at hcmd
    cases hcmd
  · cases h
    cases hcmd
  · exact wrote_of_friendCallback h hcmd
  · cases h
    cases hcmd

/-- A trapped device issues nothing. -/
theorem not_trapped_of_callback {cb : Cb} {input : Input Loc} {cmd : Command}
    (h : callback P c cb input app = (app', cmds)) (hcmd : cmd ∈ cmds) :
    (app.device c).trapped = false := by
  unfold callback at h
  split at h
  · cases h
    cases hcmd
  · next htrapped => exact Bool.eq_false_iff.2 htrapped

/-! ## Callbacks -/

/-- A callback that does not belong to a search, and meets `Q` where it is one of the accounts. -/
inductive Awaited (Q : Accounts.Cb → Prop) : Cb → Prop
  | account {cb} (h : Q cb) : Awaited Q (.account cb)
  | profileRead {uid cb} : Awaited Q (.profileRead uid cb)
  | friend {uid cb} : Awaited Q (.friend uid cb)

section Awaited

variable {Q : Accounts.Cb → Prop}

theorem awaited_of_accountCommands {cmds : List Accounts.Command}
    (h : ∀ cmd ∈ cmds, ∀ cb ∈ cmd.completion, Q cb) :
    ∀ cmd ∈ cmds.map accountCommand, ∀ cb ∈ cmd.completion, Awaited Q cb := by
  intro cmd hcmd cb hcb
  obtain ⟨cmd', hcmd', rfl⟩ := List.mem_map.1 hcmd
  have awaited : ∀ cb' ∈ cmd'.completion, Awaited Q (.account cb') := fun cb' hcb' =>
    .account (h cmd' hcmd' cb' hcb')
  cases cmd' with
  | write op completion =>
    cases op <;> obtain ⟨cb', hcb', rfl⟩ := Option.map_eq_some_iff.1 hcb <;>
      exact awaited cb' hcb'
  | ask a =>
    cases a with
    | single | value =>
      cases hcb
      exact .profileRead
    | childAdded | putData | downloadURL =>
      cases hcb
      exact awaited _ rfl

theorem awaited_of_friendCommands {uid : UID} {cmds : List Friends.Command} :
    ∀ cmd ∈ friendCommands uid cmds, ∀ cb ∈ cmd.completion, Awaited Q cb := by
  intro cmd hcmd cb hcb
  obtain ⟨cmd', -, he⟩ := List.mem_filterMap.1 hcmd
  cases cmd' with
  | write op completion =>
    cases op <;> cases he <;> obtain ⟨cb', -, rfl⟩ := Option.map_eq_some_iff.1 hcb <;>
      exact .friend
  | ask a =>
    cases a <;> cases he <;> cases hcb <;> exact .friend

theorem awaited_of_press {p : Press} {e : Env} (hQ : ∀ p d d' cmds,
      Accounts.press P.toPlatform p d = some (d', cmds) → ∀ cmd ∈ cmds, ∀ cb ∈ cmd.completion, Q cb)
    (h : press P c p e app = some (app', cmds)) (hp : ∀ query, p ≠ .getUsersFromDatabase query) :
    ∀ cmd ∈ cmds, ∀ cb ∈ cmd.completion, Awaited Q cb := by
  cases p with
  | account p =>
    obtain ⟨⟨d, cmds'⟩, hpress, he⟩ := Option.map_eq_some_iff.1 h
    cases he
    exact awaited_of_accountCommands (hQ _ _ _ _ hpress)
  | getUsersFromDatabase query => exact absurd rfl (hp query)
  | newFriendSelected i =>
    obtain ⟨-, he⟩ := Option.ite_none_left_eq_some.1 h
    obtain ⟨users, -, he⟩ := Option.map_eq_some_iff.1 he
    cases he
    simp
  | sendFrienRequestBtnPressed | addUsertoFriendsBtnPressed =>
    obtain ⟨-, he⟩ := Option.ite_none_left_eq_some.1 h
    obtain ⟨users, -, he⟩ := Option.map_eq_some_iff.1 he
    rcases withPeer_eq he with ⟨-, uid, peer, -, -, rfl⟩ | ⟨-, rfl⟩
    · exact awaited_of_friendCommands
    · simp
  | search list query =>
    obtain ⟨-, he⟩ := Option.ite_none_left_eq_some.1 h
    have he := Option.some.inj he
    unfold searchList at he
    split at he
    · split at he <;> cases he <;> simp
    · cases he
      exact awaited_of_friendCommands
  | didSelectItemAt list i =>
    obtain ⟨-, he⟩ := Option.ite_none_left_eq_some.1 h
    obtain ⟨users, -, he⟩ := Option.map_eq_some_iff.1 he
    cases he
    simp

theorem awaited_of_callback {cb : Cb} {input : Input Loc} (hQ : ∀ cb' input' d d' cmds,
      cb = .account cb' → Accounts.callback P.toPlatform cb' input' d = (d', cmds) →
      ∀ cmd ∈ cmds, ∀ cb ∈ cmd.completion, Q cb)
    (h : callback P c cb input app = (app', cmds)) :
    ∀ cmd ∈ cmds, ∀ cb ∈ cmd.completion, Awaited Q cb := by
  unfold callback at h
  split at h
  · cases h
    simp
  split at h
  · cases h
    exact awaited_of_accountCommands (hQ _ _ _ _ _ rfl rfl)
  · cases h
    exact awaited_of_accountCommands (hQ _ _ _ _ _ rfl rfl)
  · cases h
    rw [called_value (Accounts.called_of_callback rfl)]
    simp
  · cases h
    simp
  · unfold friendCallback at h
    split at h
    · split at h <;> cases h
      · simp
      · exact awaited_of_friendCommands
    all_goals
      cases h
      first
        | exact awaited_of_friendCommands
        | simp
  · cases h
    simp

end Awaited

/-- Every write under way is one of them. -/
theorem wrote_of_reaches {s₀ s : SState} {ok : SState → SLabel → Prop} (hs : Initial s₀)
    (h : Reaches (step (program P)) ok s₀ s) : ∀ w ∈ s.writes, ∃ app ev, Wrote P app ev w.op := by
  refine h.invariant (I := fun s => ∀ w ∈ s.writes, ∃ app ev, Wrote P app ev w.op)
    (by simp [hs.writes]) fun {t l u} ih _ hstep w hw => ?_
  cases transition_of_step hstep with
  | @press a e c app cmds hkey hact =>
    rcases List.mem_append.1 hw with hw | hw
    · exact ih w hw
    · obtain ⟨⟨app', cmds'⟩, hpress, he⟩ := Option.map_eq_some_iff.1 hact
      cases he
      exact ⟨_, _, wrote_of_press (e := e) hpress (mem_newWrites.1 hw).2⟩
  | @run i e task app cmds hkey ht hrun =>
    rcases List.mem_append.1 hw with hw | hw
    · exact ih w hw
    · exact ⟨_, _, wrote_of_callback (e := e) hrun (mem_newWrites.1 hw).2⟩
  | apply | reject => exact ih w (List.mem_of_mem_eraseIdx hw)
  | serve => exact ih w hw
  | die => exact ih w (List.mem_filter.1 hw).1

/-- So is every write that was answered. -/
theorem wrote_of_resolved {s₀ s : SState} {ok : SState → SLabel → Prop} {b : Bool}
    (hs : Initial s₀) (h : Reaches (step (program P)) ok s₀ s) (hr : .resolved c op b ∈ s.log) :
    ∃ app ev, Wrote P app ev op := by
  obtain ⟨later, before, hlog⟩ := List.append_of_mem hr
  exact of_resolved_suffix (Q := fun _ _ op => ∃ app ev, Wrote P app ev op) hs
    (fun t ht => wrote_of_reaches hs ht) h ⟨later, hlog.symm⟩

/-! ## Memory -/

namespace App

@[simp] theorem setDevice_self (app : App) (c : Client) (d : Device) :
    (app.setDevice c d).device c = d := Function.update_self ..

theorem setDevice_ne {d : Device} (hc : c' ≠ c) :
    (app.setDevice c d).device c' = app.device c' := Function.update_of_ne hc ..

@[simp] theorem dismiss_device (app : App) (c : Client) : (app.dismiss c).device = app.device := rfl

end App

theorem update_cases {α β : Type} [DecidableEq α] {f : α → β} {a a' : α} {v : β} {Q : β → Prop}
    (h : Q (Function.update f a v a')) : Q (f a') ∨ a' = a ∧ Q v := by
  by_cases ha : a' = a
  · subst ha
    rw [Function.update_self] at h
    exact .inr ⟨rfl, h⟩
  · rw [Function.update_of_ne ha] at h
    exact .inl h

/-- A user that the device shows or keeps for a list. -/
def Listed (app : App) (c : Client) (x : Users) : Prop :=
  (∃ call, x ∈ app.arrayUsers c call) ∨ (∃ list, x ∈ app.usersArray c list) ∨ x ∈ app.found c ∨
    app.chosen c = some x ∨ app.selected c = some x

theorem listed_of_dismiss (h : Listed (app.dismiss c) c' x) : Listed app c' x := by
  rcases h with h | ⟨list, h⟩ | h | h | h
  · exact .inl h
  · rcases update_cases (Q := fun lists : FriendList → List Users => x ∈ lists list) h with
      h | ⟨-, h⟩
    · exact .inr (.inl ⟨list, h⟩)
    · cases h
  · rcases update_cases (Q := (x ∈ ·)) h with h | ⟨-, h⟩
    · exact .inr (.inr (.inl h))
    · cases h
  · rcases update_cases (Q := (· = some x)) h with h | ⟨-, h⟩
    · exact .inr (.inr (.inr (.inl h)))
    · cases h
  · rcases update_cases (Q := (· = some x)) h with h | ⟨-, h⟩
    · exact .inr (.inr (.inr (.inr h)))
    · cases h

/-- A process that ended shows nothing. -/
theorem listed_of_die (h : Listed (die c app) c' x) : c' ≠ c ∧ Listed app c' x := by
  have hlisted : Listed app c' x := by
    rcases h with ⟨call, h⟩ | h
    · rcases update_cases (Q := fun arrays : Call → List Users => x ∈ arrays call) h with
        h | ⟨-, h⟩
      · exact .inl ⟨call, h⟩
      · cases h
    · exact listed_of_dismiss (.inr h)
  refine ⟨?_, hlisted⟩
  rintro rfl
  simp [Listed, die, App.dismiss] at h

/-- Only the list of sent requests is without ids. -/
def Named (app : App) : Prop :=
  ∀ c call, call.list ≠ .sent → ∀ x ∈ app.arrayUsers c call, x.userId.isSome = true

/-- The lists of `c` get users that meet `new`, and nothing else changes but what ends on a trap. -/
structure Extends (c : Client) (new : Users → Prop) (app app' : App) : Prop where
  device : ∀ c', c' ≠ c → app'.device c' = app.device c'
  user : (app'.device c).user = (app.device c).user
  currentUser : app'.currentUser c = app.currentUser c
  listed : ∀ c' x, Listed app' c' x → Listed app c' x ∨ c' = c ∧ new x
  named : Named app → Named app'

namespace Extends

theorem refl : Extends c new app app := ⟨fun _ _ => rfl, rfl, rfl, fun _ _ h => .inl h, id⟩

theorem user_eq (h : Extends c new app app') (c' : Client) :
    (app'.device c').user = (app.device c').user := by
  by_cases hc : c' = c
  · rw [hc, h.user]
  · rw [h.device c' hc]

theorem currentUser_eq (h : Extends c new app app') (c' : Client) :
    app'.currentUser c' = app.currentUser c' := by
  by_cases hc : c' = c
  · rw [hc, h.currentUser]
  · rw [App.currentUser, h.device c' hc]
    rfl

theorem trap (h : Extends c new app app') : Extends c new app (app'.trap c) where
  device c' hc := (App.setDevice_ne hc).trans (h.device c' hc)
  user := by
    rw [App.trap, App.setDevice_self]
    exact h.user
  currentUser := by
    rw [App.currentUser, App.trap, App.setDevice_self]
    exact h.currentUser
  listed := h.listed
  named := h.named

theorem setDevice {d : Device} (huser : d.user = (app.device c).user)
    (hu : d.currentUser = app.currentUser c) : Extends c new app (app.setDevice c d) where
  device c' hc := App.setDevice_ne hc
  user := by rw [App.setDevice_self, huser]
  currentUser := by rw [App.currentUser, App.setDevice_self, hu]
  listed _ _ := .inl
  named h := h

theorem loadImages {users : List Users} (h : Extends c new app app') :
    Extends c new app (loadImages P c users app') := by
  unfold Sessions.loadImages
  split
  · exact h
  · exact h.trap

theorem select {users : Users} {chosen : App} (h : Extends c new app app')
    (hchosen : Extends c new app chosen) : Extends c new app (select P c users app' chosen) := by
  unfold Sessions.select
  split
  · exact hchosen
  · exact h.trap

theorem mono (h : Extends c new app app') (hnew : ∀ x, new x → new' x) :
    Extends c new' app app' where
  device := h.device
  user := h.user
  currentUser := h.currentUser
  listed c' x hx := (h.listed c' x hx).imp_right (And.imp_right (hnew x))
  named := h.named

/-- The devices are as they were. -/
theorem of_listed (hdevice : app'.device = app.device) (hnamed : Named app → Named app')
    (hlisted : ∀ c' x, Listed app' c' x → Listed app c' x ∨ c' = c ∧ new x) :
    Extends c new app app' where
  device c' _ := congrFun hdevice c'
  user := by rw [hdevice]
  currentUser := by rw [App.currentUser, hdevice, App.currentUser]
  listed := hlisted
  named := hnamed

theorem found (users : List Users) :
    Extends c (· ∈ users) app { app with found := Function.update app.found c users } := by
  refine of_listed rfl id ?_
  intro c' x hx
  rcases hx with h | h | h | h | h
  · exact .inl (.inl h)
  · exact .inl (.inr (.inl h))
  · exact (update_cases (Q := (x ∈ ·)) h).imp_left fun h => .inr (.inr (.inl h))
  · exact .inl (.inr (.inr (.inr (.inl h))))
  · exact .inl (.inr (.inr (.inr (.inr h))))

theorem chosen (users : Users) :
    Extends c (· = users) app { app with chosen := Function.update app.chosen c (some users) } := by
  refine of_listed rfl id ?_
  intro c' x hx
  rcases hx with h | h | h | h | h
  · exact .inl (.inl h)
  · exact .inl (.inr (.inl h))
  · exact .inl (.inr (.inr (.inl h)))
  · rcases update_cases (Q := (· = some x)) h with h | ⟨hc, h⟩
    · exact .inl (.inr (.inr (.inr (.inl h))))
    · exact .inr ⟨hc, (Option.some.inj h).symm⟩
  · exact .inl (.inr (.inr (.inr (.inr h))))

theorem selected (users : Users) : Extends c (· = users) app
    { app with selected := Function.update app.selected c (some users) } := by
  refine of_listed rfl id ?_
  intro c' x hx
  rcases hx with h | h | h | h | h
  · exact .inl (.inl h)
  · exact .inl (.inr (.inl h))
  · exact .inl (.inr (.inr (.inl h)))
  · exact .inl (.inr (.inr (.inr (.inl h))))
  · rcases update_cases (Q := (· = some x)) h with h | ⟨hc, h⟩
    · exact .inl (.inr (.inr (.inr (.inr h))))
    · exact .inr ⟨hc, (Option.some.inj h).symm⟩

theorem arrayUsers {call : Call} {users : Users}
    (huid : call.list ≠ .sent → users.userId.isSome = true) : Extends c (· = users) app { app with
    arrayUsers := Function.update app.arrayUsers c
      (Function.update (app.arrayUsers c) call (app.arrayUsers c call ++ [users])) } := by
  -- what is in an array was there, or it is the new user
  have grown : ∀ c' call' x, x ∈ Function.update app.arrayUsers c (Function.update (app.arrayUsers c)
      call (app.arrayUsers c call ++ [users])) c' call' →
        x ∈ app.arrayUsers c' call' ∨ c' = c ∧ call' = call ∧ x = users := by
    intro c' call' x hx
    rcases update_cases (Q := fun arrays : Call → List Users => x ∈ arrays call') hx with
      hx | ⟨rfl, hx⟩
    · exact .inl hx
    · rcases update_cases (Q := (x ∈ ·)) hx with hx | ⟨rfl, hx⟩
      · exact .inl hx
      · refine (List.mem_append.1 hx).imp_right fun hx => ⟨rfl, rfl, ?_⟩
        exact List.mem_singleton.1 hx
  refine of_listed rfl ?_ ?_
  · intro h c' call' hlist x hx
    rcases grown c' call' x hx with hx | ⟨rfl, rfl, rfl⟩
    · exact h c' call' hlist x hx
    · exact huid hlist
  · intro c' x hx
    rcases hx with ⟨call', h⟩ | h | h | h | h
    · exact (grown c' call' x h).imp (fun h => .inl ⟨call', h⟩) fun h => ⟨h.1, h.2.2⟩
    · exact .inl (.inr (.inl h))
    · exact .inl (.inr (.inr (.inl h)))
    · exact .inl (.inr (.inr (.inr (.inl h))))
    · exact .inl (.inr (.inr (.inr (.inr h))))

/-- An array that is listed is shown. -/
theorem usersArray {list : FriendList} {array : List Users} (h : Extends c new app app')
    (harray : ∀ x ∈ array, Listed app' c x) : Extends c new app { app' with
      usersArray := Function.update app'.usersArray c
        (Function.update (app'.usersArray c) list array) } where
  device := h.device
  user := h.user
  currentUser := h.currentUser
  named := h.named
  listed c' x hx := by
    refine h.listed c' x ?_
    rcases hx with h | ⟨list', h⟩ | h | h | h
    · exact .inl h
    · rcases update_cases (Q := fun lists : FriendList → List Users => x ∈ lists list') h with
        h | ⟨rfl, h⟩
      · exact .inr (.inl ⟨list', h⟩)
      · rcases update_cases (Q := (x ∈ ·)) h with h | ⟨-, h⟩
        · exact .inr (.inl ⟨list', h⟩)
        · exact harray x h
    · exact .inr (.inr (.inl h))
    · exact .inr (.inr (.inr (.inl h)))
    · exact .inr (.inr (.inr (.inr h)))

theorem deliver {call : Call} {users : Users}
    (huid : call.list ≠ .sent → users.userId.isSome = true) :
    Extends c (· = users) app (deliver P c call users app) := by
  unfold Sessions.deliver
  simp only
  split
  · refine ((arrayUsers huid).usersArray fun x hx => .inl ⟨call, ?_⟩).loadImages
    simpa using hx
  · exact arrayUsers huid

end Extends

/-! ## Steps -/

/-- An entry that shows a user of a record. -/
def Shows (user : UserParams) (x : Users) : Prop :=
  x = user.users ∨ x = { user.users with userId := none }

/-- A reply that names the user of an entry. -/
def Reports : Input Loc → Users → Prop
  | .value .users (some directory), x =>
    ∃ uid user, Directory.profile directory uid = some user ∧ Accounts.usersOf uid user = some x
  | .value (.friend (.friends _)) (some dict), x => ∃ side, Shows (FriendDict.side dict side) x
  | .value (.friend (.friendRequest _)) (some dict), x => ∃ side, Shows (RequestDict.side dict side) x
  | _, _ => False

theorem extends_userRead {call : Call} {user : Option UserParams}
    (hnew : ∀ u ∈ user, ∀ x, Shows u x → new x) :
    Extends c new app (userRead P c call user app) := by
  unfold userRead
  split
  · exact .refl
  · next user =>
    split
    · refine (Extends.deliver fun hlist => ?_).mono ?_
      · cases hcall : call.list with
        | sent => exact absurd hcall hlist
        | friends | incoming => rfl
      · rintro x rfl
        refine hnew user rfl _ ?_
        cases call.list with
        | sent => exact .inr rfl
        | friends | incoming => exact .inl rfl
    · exact .refl

theorem extends_usersRead {query : String} {directory : Option Directory} :
    Extends c (Reports (.value .users directory)) app (usersRead P c query directory app) := by
  unfold usersRead
  split
  · exact Extends.refl.trap
  · next users husers =>
    refine (Extends.found users).loadImages.mono fun x hx => ?_
    obtain ⟨uid, user, hmem, hx⟩ := Accounts.mem_of_getUsersFromDatabase husers hx
    have hlookup := Accounts.mem_allUserSnapshot.1 hmem
    cases directory with
    | none => cases hlookup
    | some directory => exact ⟨uid, user, hlookup, hx⟩

theorem extends_friendCallback {uid : UID} {cb : Friends.Cb} {input : Input Loc}
    (h : friendCallback P c uid cb input app = (app', cmds)) :
    Extends c (Reports input) app app' := by
  unfold friendCallback at h
  split at h
  · split at h <;> cases h
    · exact Extends.refl.trap
    · exact .refl
  case h_10 =>
    cases h
    refine extends_userRead fun u hu x hx => ?_
    obtain ⟨dict, rfl, rfl⟩ := Option.map_eq_some_iff.1 hu
    exact ⟨_, hx⟩
  case h_11 =>
    cases h
    refine extends_userRead fun u hu x hx => ?_
    obtain ⟨dict, rfl, rfl⟩ := Option.map_eq_some_iff.1 hu
    exact ⟨_, hx⟩
  all_goals
    cases h
    exact .refl

/-- What a callback does to the memory. Only the reply of `getUserCredentialsFromDatabase` changes
the singleton. -/
inductive Called (c : Client) (app : App) : Cb → Input Loc → App → Prop
  | kept {cb input app'} (h : Extends c (Reports input) app app') : Called c app cb input app'
  | loaded {uid k directory d} (htrapped : (app.device c).trapped = false)
    (hread : Accounts.credentials (directory.bind (Directory.profile · uid)) = some d.user)
    (hu : d.currentUser = app.currentUser c) :
    Called c app (.profileRead uid (.credentialsRead k)) (.value .users directory) (app.setDevice c d)

theorem called_of_accountCallback {cb : Accounts.Cb} {input : Input Accounts.Loc}
    (h : accountCallback P c cb input app = (app', cmds)) :
    ∃ d, app' = app.setDevice c d ∧ d.currentUser = app.currentUser c ∧
      (d.user = (app.device c).user ∨ ∃ k uid value, cb = .credentialsRead k ∧
        input = .value (.users uid) value ∧ Accounts.credentials value = some d.user) := by
  unfold accountCallback at h
  generalize hcall : Accounts.callback P.toPlatform cb input (app.device c) = r at h
  obtain ⟨d, cmds'⟩ := r
  obtain ⟨hu, huser⟩ := (Accounts.called_of_callback hcall).user
  cases h
  refine ⟨_, rfl, ?_⟩
  -- the picture that does not parse traps the device and changes nothing else
  split <;> exact ⟨hu, huser⟩

theorem called_of_callback {cb : Cb} {input : Input Loc}
    (h : callback P c cb input app = (app', cmds)) : Called c app cb input app' := by
  unfold callback at h
  split at h
  · cases h
    exact .kept .refl
  next htrapped =>
  split at h
  · obtain ⟨d, rfl, hu, huser | ⟨k, uid, value, -, he, -⟩⟩ := called_of_accountCallback h
    · exact .kept (.setDevice huser hu)
    · cases he
  · obtain ⟨d, rfl, hu, huser | ⟨k, uid, value, -, he, -⟩⟩ := called_of_accountCallback h
    · exact .kept (.setDevice huser hu)
    · cases he
  · obtain ⟨d, rfl, hu, huser | ⟨k, uid, value, rfl, he, hread⟩⟩ := called_of_accountCallback h
    · exact .kept (.setDevice huser hu)
    · cases he
      exact .loaded (Bool.eq_false_iff.2 htrapped) hread hu
  · cases h
    exact .kept extends_usersRead
  · exact .kept (extends_friendCallback h)
  · cases h
    exact .kept .refl

/-- What a press does to the memory. -/
inductive Pressed (c : Client) (app : App) : Press → App → Prop
  | kept {p app'} (h : Extends c (Listed app c) app app') : Pressed c app p app'
  | signedIn {uid p d} (hp : Accounts.Press.signsIn p = some uid)
    (huser : d.user = (app.device c).user) (hu : d.currentUser = some uid) :
    Pressed c app (.account p) (app.setDevice c d)
  | signedOut {d} (huser : d.user = {}) (hu : d.currentUser = none) :
    Pressed c app (.account .signOutPressed) ((app.setDevice c d).dismiss c)

theorem pressed_of_press {p : Press} {e : Env} (h : press P c p e app = some (app', cmds)) :
    Pressed c app p app' := by
  cases p with
  | account p =>
    obtain ⟨⟨d, cmds'⟩, hpress, he⟩ := Option.map_eq_some_iff.1 h
    cases he
    rcases (Accounts.pressed_of_press hpress).user with
      ⟨hp, huser, hu | ⟨uid, hsigns, hu⟩⟩ | ⟨rfl, huser, hu⟩
    · rw [if_neg hp]
      exact .kept (.setDevice huser hu)
    · rw [if_neg hp]
      exact .signedIn hsigns huser hu
    · exact .signedOut huser hu
  | getUsersFromDatabase query =>
    obtain ⟨-, he⟩ := Option.ite_none_left_eq_some.1 h
    cases he
    exact .kept .refl
  | newFriendSelected i =>
    obtain ⟨-, he⟩ := Option.ite_none_left_eq_some.1 h
    obtain ⟨users, husers, he⟩ := Option.map_eq_some_iff.1 he
    cases he
    refine .kept (Extends.refl.select ((Extends.chosen users).mono ?_))
    rintro x rfl
    exact .inr (.inr (.inl (List.mem_of_getElem? husers)))
  | sendFrienRequestBtnPressed | addUsertoFriendsBtnPressed =>
    obtain ⟨-, he⟩ := Option.ite_none_left_eq_some.1 h
    obtain ⟨users, -, he⟩ := Option.map_eq_some_iff.1 he
    rcases withPeer_eq he with ⟨rfl, -⟩ | ⟨rfl, -⟩
    · exact .kept .refl
    · exact .kept Extends.refl.trap
  | search list query =>
    obtain ⟨-, he⟩ := Option.ite_none_left_eq_some.1 h
    have he := Option.some.inj he
    unfold searchList at he
    split at he
    · split at he <;> cases he
      · exact .kept Extends.refl.trap
      · exact .kept .refl
    · cases he
      exact .kept .refl
  | didSelectItemAt list i =>
    obtain ⟨-, he⟩ := Option.ite_none_left_eq_some.1 h
    obtain ⟨users, husers, he⟩ := Option.map_eq_some_iff.1 he
    cases he
    refine .kept (Extends.refl.select ?_)
    split
    · refine (Extends.selected users).mono ?_
      rintro x rfl
      exact .inr (.inl ⟨list, List.mem_of_getElem? husers⟩)
    · exact .refl

end FLChat.Sessions
