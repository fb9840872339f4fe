import FLChat.Realtime.Component
import FLChat.Sessions.Issued

/-!
# The parts of the process

The accounts and the friends share the process, the tree and the sessions, but each has its own
locations, callbacks and commands: `press_other` and `callback_other` say what is left of a press and
of a callback that are not those of the accounts, and `Known` lists the commands of both. With it
each part can be looked at as a component of the process.
-/

namespace FLChat.Sessions

open Realtime
open FLChat.Messages (Data)
open FLChat.Accounts (UID Dict Device)
open FLChat.Friends (Call FriendList Side UserParams Users)

variable {P : Platform} {c c' : Client} {app app' : App} {cmds : List Command} {s₀ s s' : SState}
  {uid : UID} {p : Press} {e : Env}

/-! ## Commands -/

/-- The commands of the program. -/
inductive Known : Command → Prop
  | profile {uid dict} : Known (.write (.update .users (Directory.single uid dict)) none)
  | entry {l v completion} : Known (.write (.update (.friend l) v) completion)
  | remove {p completion} (hp : p.isPrefixOf ["users"] = false) :
    Known (.write (.remove p) completion)
  | childAdded {p uid cb} (hp : p.isPrefixOf ["users"] = false) :
    Known (.ask (.childAdded p (.friend uid cb)))
  | value {l uid cb} : Known (.ask (.value (.friend l) (.friend uid cb)))
  | single {l uid cb} : Known (.ask (.single (.friend l) (.friend uid cb)))
  | profileRead {uid cb} : Known (.ask (.single .users (.profileRead uid cb)))
  | usersRead {query} : Known (.ask (.single .users (.usersRead query)))
  | putData {p data cb} : Known (.ask (.putData p data (.account cb)))
  | downloadURL {p cb} : Known (.ask (.downloadURL p (.account cb)))

theorem known_of_accountCommands {cmds : List Accounts.Command} {user : Option UID}
    (h : ∀ cmd ∈ cmds, Accounts.Issues user cmd) : ∀ cmd ∈ cmds.map accountCommand, Known cmd := by
  intro cmd hcmd
  obtain ⟨cmd', hcmd', rfl⟩ := List.mem_map.1 hcmd
  cases h cmd' hcmd' with
  | write => exact .profile
  | read => exact .profileRead
  | upload => exact .putData
  | url => exact .downloadURL

/-- What the friends observe and remove lies beside the profiles, and they upload nothing. -/
def Beside : Friends.Command → Prop
  | .ask (.childAdded p _) | .write (.remove p) _ => p.isPrefixOf ["users"] = false
  | .ask (.value ..) | .ask (.single ..) | .write (.update ..) _ => True
  | .ask (.putData ..) | .ask (.downloadURL ..) => False

theorem known_of_friendCommands {cmds : List Friends.Command} (h : ∀ cmd ∈ cmds, Beside cmd) :
    ∀ cmd ∈ friendCommands uid cmds, Known cmd := by
  intro cmd hcmd
  obtain ⟨cmd', hcmd', he⟩ := List.mem_filterMap.1 hcmd
  have hbeside := h cmd' hcmd'
  cases cmd' with
  | write op completion =>
    cases op <;> cases he
    · exact .entry
    · exact .remove hbeside
  | ask a =>
    cases a <;> cases he
    · exact .childAdded hbeside
    · exact .value
    · exact .single

theorem beside_searchList {client : Friends.Client} {list : FriendList} {query id : String} :
    Beside (Friends.searchList client list query id) := by
  cases list <;> rfl

/-! ## What is not of the accounts -/

/-- The device is as before, but it may be trapped. -/
def Halts (app app' : App) : Prop :=
  ∀ c, app'.device c = app.device c ∨ app'.device c = { app.device c with trapped := true }

namespace Halts

theorem refl : Halts app app := fun _ => .inl rfl

theorem trap (h : Halts app app') : Halts app (app'.trap c) := by
  intro c'
  by_cases hc : c' = c
  · subst hc
    rw [App.trap, App.setDevice_self]
    rcases h c' with h | h <;> rw [h] <;> exact .inr rfl
  · rw [App.trap, App.setDevice_ne hc]
    exact h c'

theorem of_device (h : Halts app app') {app'' : App} (hdevice : app''.device = app'.device) :
    Halts app app'' := by
  intro c
  rw [hdevice]
  exact h c

theorem loadImages {users : List Users} (h : Halts app app') :
    Halts app (loadImages P c users app') := by
  unfold Sessions.loadImages
  split
  · exact h
  · exact h.trap

theorem select {users : Users} {chosen : App} (hchosen : chosen.device = app.device) :
    Halts app (select P c users app chosen) := by
  unfold Sessions.select
  split
  · exact refl.of_device hchosen
  · exact refl.trap

theorem deliver {call : Call} {users : Users} : Halts app (deliver P c call users app) := by
  unfold Sessions.deliver
  simp only
  split
  · exact (refl.of_device rfl).loadImages
  · exact refl.of_device rfl

theorem userRead {call : Call} {user : Option UserParams} :
    Halts app (userRead P c call user app) := by
  unfold Sessions.userRead
  split
  · exact refl
  · split
    · exact deliver
    · exact refl

theorem usersRead {query : String} {directory : Option Directory} :
    Halts app (usersRead P c query directory app) := by
  unfold Sessions.usersRead
  split
  · exact refl.trap
  · exact (refl.of_device rfl).loadImages

end Halts

/-- What is not of the accounts: commands of the friends, or a look at all profiles. -/
inductive Other : List Command → Prop
  | friends {uid cmds'} (h : ∀ cmd ∈ cmds', Beside cmd) : Other (friendCommands uid cmds')
  | directory {query} : Other [.ask (.single .users (.usersRead query))]

theorem other_nil : Other [] := @Other.friends "" [] fun _ h => (by cases h)

theorem Other.known (h : Other cmds) : ∀ cmd ∈ cmds, Known cmd := by
  cases h with
  | friends h => exact known_of_friendCommands h
  | directory => exact List.forall_mem_singleton.2 .usersRead

theorem other_singleton {cmd : Friends.Command} (h : Beside cmd) :
    Other (friendCommands uid [cmd]) := .friends (List.forall_mem_singleton.2 h)

theorem other_of_withPeer {users : Users}
    {f : UID → Accounts.User → UserParams → List Friends.Command}
    (hf : ∀ uid user peer, ∀ cmd ∈ f uid user peer, Beside cmd)
    (h : withPeer c users app f = (app', cmds)) : Halts app app' ∧ Other cmds := by
  rcases withPeer_eq h with ⟨rfl, uid, peer, -, -, rfl⟩ | ⟨rfl, rfl⟩
  · exact ⟨.refl, .friends (hf _ _ _)⟩
  · exact ⟨Halts.refl.trap, other_nil⟩

/-- The view controllers of the friends are over `HomeVC`. -/
theorem home_of_press {r : App × List Command} (h : press P c p e app = some r)
    (hp : ∀ p', p ≠ .account p') : (app.device c).home = true := by
  have home : ¬ ((app.device c).trapped || !(app.device c).home) = true →
      (app.device c).home = true := by
    intro hguard
    simp only [Bool.or_eq_true, not_or, Bool.not_eq_true, Bool.not_eq_false'] at hguard
    exact hguard.2
  cases p with
  | account p => exact absurd rfl (hp p)
  | getUsersFromDatabase | newFriendSelected | sendFrienRequestBtnPressed | search
  | didSelectItemAt | addUsertoFriendsBtnPressed =>
    exact home (Option.ite_none_left_eq_some.1 h).1

theorem press_other (h : press P c p e app = some (app', cmds)) (hp : ∀ p', p ≠ .account p') :
    Halts app app' ∧ Other cmds := by
  cases p with
  | account p => exact absurd rfl (hp p)
  | getUsersFromDatabase query =>
    obtain ⟨-, he⟩ := Option.ite_none_left_eq_some.1 h
    cases he
    exact ⟨.refl, .directory⟩
  | newFriendSelected i =>
    obtain ⟨-, he⟩ := Option.ite_none_left_eq_some.1 h
    obtain ⟨users, -, he⟩ := Option.map_eq_some_iff.1 he
    cases he
    exact ⟨.select rfl, other_nil⟩
  | sendFrienRequestBtnPressed =>
    obtain ⟨-, he⟩ := Option.ite_none_left_eq_some.1 h
    obtain ⟨users, -, he⟩ := Option.map_eq_some_iff.1 he
    refine other_of_withPeer (fun uid user peer => ?_) he
    exact List.forall_mem_cons.2 ⟨trivial, List.forall_mem_singleton.2 trivial⟩
  | search list query =>
    obtain ⟨-, he⟩ := Option.ite_none_left_eq_some.1 h
    have he := Option.some.inj he
    unfold searchList at he
    split at he
    · split at he <;> cases he
      · exact ⟨Halts.refl.trap, other_nil⟩
      · exact ⟨.refl, other_nil⟩
    · cases he
      exact ⟨.refl, other_singleton beside_searchList⟩
  | didSelectItemAt list i =>
    obtain ⟨-, he⟩ := Option.ite_none_left_eq_some.1 h
    obtain ⟨users, -, he⟩ := Option.map_eq_some_iff.1 he
    cases he
    refine ⟨.select ?_, other_nil⟩
    split <;> rfl
  | addUsertoFriendsBtnPressed =>
    obtain ⟨-, he⟩ := Option.ite_none_left_eq_some.1 h
    obtain ⟨users, -, he⟩ := Option.map_eq_some_iff.1 he
    refine other_of_withPeer (fun uid user peer => ?_) he
    exact List.forall_mem_cons.2 ⟨trivial, List.forall_mem_singleton.2 trivial⟩

theorem other_recordRead {key : Friends.Loc} {call : Call} {sides : List Side} :
    Other (friendCommands uid (sides.map fun side => .ask (.value key (.userRead call side)))) := by
  refine .friends fun cmd hcmd => ?_
  obtain ⟨side, -, rfl⟩ := List.mem_map.1 hcmd
  trivial

theorem friendCallback_other {cb : Friends.Cb} {input : Input Loc}
    (h : friendCallback P c uid cb input app = (app', cmds)) : Halts app app' ∧ Other cmds := by
  unfold friendCallback at h
  split at h
  · split at h <;> cases h
    · exact ⟨Halts.refl.trap, other_nil⟩
    · exact ⟨.refl, other_singleton trivial⟩
  · cases h
    exact ⟨.refl, other_singleton trivial⟩
  · cases h
    exact ⟨.refl, other_singleton rfl⟩
  · cases h
    exact ⟨.refl, other_singleton rfl⟩
  · cases h
    refine ⟨.refl, .friends (List.forall_mem_cons.2 ⟨rfl, List.forall_mem_cons.2 ⟨rfl, ?_⟩⟩)⟩
    exact List.forall_mem_singleton.2 rfl
  · cases h
    exact ⟨.refl, other_singleton rfl⟩
  · cases h
    exact ⟨.refl, other_singleton trivial⟩
  · cases h
    exact ⟨.refl, other_recordRead⟩
  · cases h
    exact ⟨.refl, other_recordRead⟩
  · cases h
    exact ⟨.userRead, other_nil⟩
  · cases h
    exact ⟨.userRead, other_nil⟩
  · cases h
    exact ⟨.refl, other_nil⟩

/-- A callback on a device that is not trapped. -/
inductive CallbackRan (P : Platform) (c : Client) (app : App) :
    Cb → Input Loc → App → List Command → Prop
  | stored {cb ok app' cmds} (h : accountCallback P c cb (.stored ok) app = (app', cmds)) :
    CallbackRan P c app (.account cb) (.stored ok) app' cmds
  | url {cb u app' cmds} (h : accountCallback P c cb (.url u) app = (app', cmds)) :
    CallbackRan P c app (.account cb) (.url u) app' cmds
  | profileRead {uid cb directory app' cmds} (h : accountCallback P c cb
      (.value (.users uid) (directory.bind (Directory.profile · uid))) app = (app', cmds)) :
    CallbackRan P c app (.profileRead uid cb) (.value .users directory) app' cmds
  | usersRead {query directory} :
    CallbackRan P c app (.usersRead query) (.value .users directory)
      (usersRead P c query directory app) []
  | friend {uid cb input app' cmds} (h : friendCallback P c uid cb input app = (app', cmds)) :
    CallbackRan P c app (.friend uid cb) input app' cmds
  | ignored {cb input} : CallbackRan P c app cb input app []

theorem callbackRan {cb : Cb} {input : Input Loc} (h : callback P c cb input app = (app', cmds)) :
    (app.device c).trapped = true ∧ app' = app ∧ cmds = [] ∨
      (app.device c).trapped = false ∧ CallbackRan P c app cb input app' cmds := by
  unfold callback at h
  split at h
  · next htrapped =>
    cases h
    exact .inl ⟨htrapped, rfl, rfl⟩
  next htrapped =>
  refine .inr ⟨Bool.eq_false_iff.2 htrapped, ?_⟩
  split at h
  · exact .stored h
  · exact .url h
  · exact .profileRead h
  · cases h
    exact .usersRead
  · exact .friend h
  · cases h
    exact .ignored

/-! ## What the process keeps -/

theorem known_of_press (h : press P c p e app = some (app', cmds)) : ∀ cmd ∈ cmds, Known cmd := by
  by_cases hp : ∃ p', p = .account p'
  · obtain ⟨p, rfl⟩ := hp
    obtain ⟨⟨d, cmds'⟩, hpress, he⟩ := Option.map_eq_some_iff.1 h
    cases he
    exact known_of_accountCommands (Accounts.pressed_of_press hpress).issues
  · exact (press_other h fun p' hp' => hp ⟨p', hp'⟩).2.known

theorem known_of_accountCallback {cb : Accounts.Cb} {input : Input Accounts.Loc}
    (h : accountCallback P c cb input app = (app', cmds)) : ∀ cmd ∈ cmds, Known cmd := by
  cases h
  exact known_of_accountCommands (Accounts.called_of_callback rfl).issues

theorem known_of_callback {cb : Cb} {input : Input Loc}
    (h : callback P c cb input app = (app', cmds)) : ∀ cmd ∈ cmds, Known cmd := by
  rcases callbackRan h with ⟨-, -, rfl⟩ | ⟨-, hran⟩
  · exact List.forall_mem_nil _
  cases hran with
  | stored h | url h | profileRead h => exact known_of_accountCallback h
  | usersRead | ignored => exact List.forall_mem_nil _
  | friend h => exact (friendCallback_other h).2.known

/-- What is under way is of one of the parts. -/
theorem underway_of_reaches {ok : SState → SLabel → Prop} (hs : Initial s₀)
    (h : Reaches (step (program P)) ok s₀ s) : Underway (fun _ => Known) s := by
  refine h.invariant (.initial hs) fun ih _ hstep => ih.step (transition_of_step hstep) ?_ ?_
  · intro a e c app cmds hact
    obtain ⟨⟨app', cmds'⟩, hpress, he⟩ := Option.map_eq_some_iff.1 hact
    cases he
    exact known_of_press hpress
  · exact fun t e app cmds _ hrun => known_of_callback hrun

end FLChat.Sessions
