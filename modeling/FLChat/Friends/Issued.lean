import FLChat.Friends.Model
import FLChat.Realtime.Progress

/-!
# Who writes what among friends

`Issues` lists every command of the program with the event that issues it. With the history of the
backend it names, for every write that is under way or was answered, the press that it goes back to:
a request and its two index entries go back to one press of the send button, a friendship and its
two index entries to one accept, and a removal to an event of an inner observer, which is itself
about an index entry that was written.
-/

namespace FLChat.Friends

open Realtime

variable {email : UID → String}

/-- The commands that the program issues, with the event and the program state in which it does. -/
inductive Issues (email : UID → String) : FEvent → App → Client → Command → Prop
  | request {c peer e app} (hpeer : peer.email ≠ email c.uid) :
    Issues email (.pressed (.sendFrienRequestBtnPressed c peer) e) app c
      (.write (.update (.friendRequest e.key) (⟨c.uid, app.params c, peer.uid, peer, e.now,
        "Hi! I want to be your friend", false⟩ : RequestDict)) none)
  | requestIndex {c peer e app} (hpeer : peer.email ≠ email c.uid) :
    Issues email (.pressed (.sendFrienRequestBtnPressed c peer) e) app c
      (.write (.update (.userFriendRequest c.uid peer.uid e.key) (1 : ℕ))
        (some (.requestSend e.key peer.uid peer.name)))
  | recipientIndex {c key toId name ok e app} :
    Issues email (.ran ⟨c, .requestSend key toId name, .acked ok⟩ e) app c
      (.write (.update (.userFriendRequest toId c.uid key) (1 : ℕ)) (some .recipientAdded))
  | friend {c peer e app} (hpeer : app.selected c = some peer.users) :
    Issues email (.pressed (.addUsertoFriendsBtnPressed c peer) e) app c
      (.write (.update (.friends e.key)
        (⟨peer.uid, peer, c.uid, app.params c, e.now, true⟩ : FriendDict)) none)
  | friendIndex {c peer e app} (hpeer : app.selected c = some peer.users) :
    Issues email (.pressed (.addUsertoFriendsBtnPressed c peer) e) app c
      (.write (.update (.userFriends c.uid e.key) (1 : ℕ))
        (some (.userFriendAdded e.key peer.uid peer.name)))
  | recipientFriendIndex {c key fromId name ok e app} :
    Issues email (.ran ⟨c, .userFriendAdded key fromId name, .acked ok⟩ e) app c
      (.write (.update (.userFriends fromId key) (1 : ℕ))
        (some (.recipientFriendAdded fromId name)))
  | outer {c fromId name ok e app} :
    Issues email (.ran ⟨c, .recipientFriendAdded fromId name, .acked ok⟩ e) app c
      (.ask (.childAdded (friendRequestsWith c.uid fromId) (.removeOuter c.uid fromId name)))
  | inner {c toId fromId name key e app} :
    Issues email (.ran ⟨c, .removeOuter toId fromId name, .childAdded key⟩ e) app c
      (.ask (.childAdded (friendRequestsWith fromId toId) (.removeInner toId fromId name)))
  | removeRequest {c toId fromId name key e app} :
    Issues email (.ran ⟨c, .removeInner toId fromId name, .childAdded key⟩ e) app c
      (.write (.remove ["friend_request", key]) none)
  | removeIndex {c toId fromId name key e app} :
    Issues email (.ran ⟨c, .removeInner toId fromId name, .childAdded key⟩ e) app c
      (.write (.remove (friendRequestsWith toId fromId)) none)
  | removeSenderIndex {c toId fromId name key e app} :
    Issues email (.ran ⟨c, .removeInner toId fromId name, .childAdded key⟩ e) app c
      (.write (.remove (friendRequestsWith fromId toId)) none)
  | searchFriends {c query e app} :
    Issues email (.pressed (.search c .friends query) e) app c
      (.ask (.childAdded ["user_friends", c.uid] (.entryAdded ⟨c, .friends, query, e.key⟩)))
  | searchRequests {c list query e app} (hlist : list ≠ .friends) :
    Issues email (.pressed (.search c list query) e) app c
      (.ask (.childAdded (friendRequestsOf c.uid) (.peerAdded ⟨c, list, query, e.key⟩)))
  | peerEntries {c call peer e app} :
    Issues email (.ran ⟨c, .peerAdded call, .childAdded peer⟩ e) app c
      (.ask (.childAdded (friendRequestsWith c.uid peer) (.entryAdded call)))
  | readRecord {c call key e app} :
    Issues email (.ran ⟨c, .entryAdded call, .childAdded key⟩ e) app c
      (.ask (.single (call.list.record key) (.recordRead call)))
  | readFriend {c call key dict side e app} (hside : shownSide c call.list dict = some side) :
    Issues email (.ran ⟨c, .recordRead call, .value (.friends key) dict⟩ e) app c
      (.ask (.value (.friends key) (.userRead call side)))
  | readRequest {c call key dict side e app} (hside : shownSide c call.list none = some side) :
    Issues email (.ran ⟨c, .recordRead call, .value (.friendRequest key) dict⟩ e) app c
      (.ask (.value (.friendRequest key) (.userRead call side)))

/-- What a press does, with the state in which it is possible. -/
inductive Pressed (email : UID → String) (e : Env) (app : App) :
    Action → Client → App → List Command → Prop
  | send {c peer} (hpeer : peer.email ≠ email c.uid) :
    Pressed email e app (.sendFrienRequestBtnPressed c peer) c app
      (sendFrienRequestBtnPressed c peer e app)
  | accept {c peer} (hpeer : app.selected c = some peer.users) :
    Pressed email e app (.addUsertoFriendsBtnPressed c peer) c app
      (addUsertoFriendsBtnPressed c peer e app)
  | search {c list query} :
    Pressed email e app (.search c list query) c app [searchList c list query e.key]
  | select {c i users} (husers : (app.usersArray c .incoming)[i]? = some users) :
    Pressed email e app (.didSelectItemAt c i) c
      { app with selected := fun c' => if c' = c then some users else app.selected c' } []
  | load {c user} :
    Pressed email e app (.profileLoaded c user) c
      { app with user := fun c' => if c' = c then user else app.user c' } []

theorem pressed_of_act {a : Action} {e : Env} {app app' : App} {c : Client} {cmds : List Command}
    (hact : act email a e app = some (c, app', cmds)) : Pressed email e app a c app' cmds := by
  cases a with
  | sendFrienRequestBtnPressed c' peer =>
    simp only [act] at hact
    split at hact
    · cases hact
    · next hpeer =>
      cases hact
      exact .send hpeer
  | addUsertoFriendsBtnPressed c' peer =>
    simp only [act] at hact
    split at hact
    · next hpeer =>
      cases hact
      exact .accept hpeer
    · cases hact
  | search c' list query =>
    cases hact
    exact .search
  | didSelectItemAt c' i =>
    obtain ⟨users, husers, he⟩ := Option.map_eq_some_iff.1 hact
    cases he
    exact .select husers
  | profileLoaded c' user =>
    cases hact
    exact .load

section Issued

variable {G : Guard Loc Client Cb Unit App Action} {log : List FEvent} {c : Client} {cmd : Command}

theorem issues_of_act {a : Action} {e : Env} {app app' : App} {cmds : List Command}
    (hact : act email a e app = some (c, app', cmds)) (h : cmd ∈ cmds) :
    Issues email (.pressed a e) app c cmd := by
  cases pressed_of_act hact with
  | send hpeer =>
    simp only [sendFrienRequestBtnPressed, List.mem_cons, List.not_mem_nil, or_false] at h
    rcases h with rfl | rfl
    · exact .request hpeer
    · exact .requestIndex hpeer
  | accept hpeer =>
    simp only [addUsertoFriendsBtnPressed, List.mem_cons, List.not_mem_nil, or_false] at h
    rcases h with rfl | rfl
    · exact .friend hpeer
    · exact .friendIndex hpeer
  | @search c list query =>
    rw [List.mem_singleton.1 h]
    cases list with
    | friends => exact .searchFriends
    | incoming => exact .searchRequests (by decide)
    | sent => exact .searchRequests (by decide)
  | select | load => cases h

theorem issues_of_handle {e : Env} {cb : Cb} {input : Input Loc} {app : App}
    (h : cmd ∈ (handle email c cb input app).2) :
    Issues email (.ran ⟨c, cb, input⟩ e) app c cmd := by
  unfold handle at h
  split at h
  · rw [List.mem_singleton.1 h]
    exact .recipientIndex
  · rw [List.mem_singleton.1 h]
    exact .recipientFriendIndex
  · rw [List.mem_singleton.1 h]
    exact .outer
  · rw [List.mem_singleton.1 h]
    exact .inner
  · simp only [removeInner, List.mem_cons, List.not_mem_nil, or_false] at h
    rcases h with rfl | rfl | rfl
    · exact .removeRequest
    · exact .removeIndex
    · exact .removeSenderIndex
  · rw [List.mem_singleton.1 h]
    exact .peerEntries
  · rw [List.mem_singleton.1 h]
    exact .readRecord
  · obtain ⟨side, hside, rfl⟩ := List.mem_map.1 h
    exact .readFriend (Option.mem_toList.1 hside)
  · obtain ⟨side, hside, rfl⟩ := List.mem_map.1 h
    exact .readRequest (Option.mem_toList.1 hside)
  · cases h
  · cases h
  · cases h

theorem issues_of_run {e : Env} {cb : Cb} {input : Input Loc} {app app' : App}
    {cmds : List Command} (hrun : (program email).handle c e cb input app = (app', cmds))
    (h : cmd ∈ cmds) : Issues email (.ran ⟨c, cb, input⟩ e) app c cmd := by
  refine issues_of_handle ?_
  rw [show handle email c cb input app = (app', cmds) from hrun]
  exact h

theorem issues_of_issued (h : Issued (program email) G log c cmd) :
    ∃ ev ∈ log, ∃ app, G ev app ∧ Issues email ev app c cmd := by
  rcases h with ⟨a, e, app, app', cmds, hev, hG, hact, hcmd⟩ | ⟨t, e, app, hev, hG, rfl, hcmd⟩
  · exact ⟨_, hev, app, hG, issues_of_act hact hcmd⟩
  · exact ⟨_, hev, app, hG, issues_of_handle hcmd⟩

end Issued

/-! ## Paths -/

theorem friendRequestsWith_inj {u v u' v' : UID}
    (h : friendRequestsWith u v = friendRequestsWith u' v') : u = u' ∧ v = v' := by
  simpa [friendRequestsWith] using h

theorem friendRequestsWith_below {u v : UID} {l : Loc} :
    friendRequestsWith u v <+: path l ↔ ∃ k, l = .userFriendRequest u v k := by
  constructor
  · intro hp
    cases l with
    | userFriendRequest u' v' k =>
      obtain ⟨rfl, rfl, -⟩ : u = u' ∧ v = v' ∧ True := by
        simpa [friendRequestsWith, path] using hp
      exact ⟨k, rfl⟩
    | friendRequest | friends | userFriends => simp [friendRequestsWith, path] at hp
  · rintro ⟨k, rfl⟩
    simp [friendRequestsWith, path]

theorem childKey_friendRequestsWith {u v : UID} {l : Loc} {k : String} :
    Tree.childKey (friendRequestsWith u v) l = some k ↔ l = .userFriendRequest u v k := by
  constructor
  · intro h
    obtain ⟨k', rfl⟩ := friendRequestsWith_below.1 (Tree.prefix_of_childKey h)
    obtain rfl : k' = k := by simpa [Tree.childKey, friendRequestsWith, path] using h
    rfl
  · rintro rfl
    simp [Tree.childKey, friendRequestsWith, path]

theorem friendRequest_below {k : String} {l : Loc} :
    ["friend_request", k] <+: path l ↔ l = .friendRequest k := by
  cases l <;> simp [path, eq_comm]

theorem userFriends_below {u : UID} {l : Loc} :
    ["user_friends", u] <+: path l ↔ ∃ k, l = .userFriends u k := by
  cases l <;> simp [path, eq_comm]

theorem childKey_userFriends {u : UID} {l : Loc} {k : String} :
    Tree.childKey ["user_friends", u] l = some k ↔ l = .userFriends u k := by
  constructor
  · intro h
    obtain ⟨k', rfl⟩ := userFriends_below.1 (Tree.prefix_of_childKey h)
    obtain rfl : k' = k := by simpa [Tree.childKey, path] using h
    rfl
  · rintro rfl
    simp [Tree.childKey, path]

end FLChat.Friends
