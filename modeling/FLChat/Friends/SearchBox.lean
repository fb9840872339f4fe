import FLChat.Friends.Calls
import FLChat.Friends.Consent
import FLChat.Friends.FriendsList
import FLChat.Realtime.Reading
import Mathlib.Algebra.Module.BigOperators
import Mathlib.Algebra.Order.Group.Multiset

/-!
# The search box of a list

Every appearance and every edit of the text opens another call of the list's function, with its own
array, and every delivery to a call shows that call's array. With the database unchanged each call
ends with the entries that match its own text (`arrayUsers_perm_matching`), in whatever order its
events come in. The screen shows the array of the call that delivered last, so it shows the matches
of the final text exactly when that call has the same ones (`shows_final_iff`): a call that finds
nobody shows nothing and takes nothing back.
-/

namespace FLChat.Friends

open Realtime

variable {email : UID → String} {T : Realtime.Tree Loc} {s₁ s s' : FState} {l : FLabel}
  {c : Client} {call : Call} {list : FriendList}

/-! ## The matches of a text -/

/-- The keys in the index that a list of `uid` observes. -/
def indexKeys (T : Realtime.Tree Loc) (uid : UID) : FriendList → List String
  | .friends => T.children ["user_friends", uid]
  | .incoming | .sent =>
    (T.children (friendRequestsOf uid)).flatMap fun peer => T.children (friendRequestsWith uid peer)

/-- Whom a list of `uid` is about at an entry: the other one of two friends, the sender of an
incoming request, the recipient of one that was sent. -/
def listedUser (T : Realtime.Tree Loc) (uid : UID) (list : FriendList) (key : String) :
    Option UserParams :=
  match list with
  | .friends => (T.lookup (Loc.friends key)).map fun d => FriendDict.other d uid
  | .incoming => (T.lookup (Loc.friendRequest key)).map fun d => RequestDict.fromIdUser d
  | .sent => (T.lookup (Loc.friendRequest key)).map fun d => RequestDict.toIdUser d

/-- The entries of a list whose e-mail contains the text, without the user's own. -/
def matching (email : UID → String) (T : Realtime.Tree Loc) (uid : UID) (list : FriendList)
    (text : String) : List Users :=
  (((indexKeys T uid list).filterMap (listedUser T uid list)).filter fun user =>
    containsText user.email text && decide (user.email ≠ email uid)).map list.entry

/-- Every text contains the empty one. -/
theorem containsText_empty (text : String) : containsText text "" = true := by
  unfold containsText
  rw [List.any_eq_true]
  exact ⟨text.toList, (List.mem_tails _ _).2 (List.suffix_refl _), rfl⟩

theorem matchesQuery_eq (query mail own : String) :
    matchesQuery query mail own = (containsText mail query && decide (mail ≠ own)) := by
  unfold matchesQuery
  split
  · next h => rw [h, containsText_empty, Bool.true_and]
  · rfl

theorem matching_eq (email : UID → String) (T : Realtime.Tree Loc) (call : Call) :
    matching email T call.client.uid call.list call.query =
      (indexKeys T call.client.uid call.list).flatMap fun key =>
        shown email call (listedUser T call.client.uid call.list key) := by
  unfold matching
  induction indexKeys T call.client.uid call.list with
  | nil => rfl
  | cons key keys ih =>
    rw [List.flatMap_cons, ← ih, List.filterMap_cons]
    cases listedUser T call.client.uid call.list key with
    | none => simp [shown]
    | some user =>
      simp only [shown, Option.toList_some, List.filter_cons, matchesQuery_eq]
      split <;> simp

/-! ## What a request leads to -/

/-- The callbacks of a list. -/
def Cb.ofList : Cb → Prop
  | .peerAdded _ | .entryAdded _ | .recordRead _ | .userRead .. => True
  | _ => False

instance : DecidablePred Cb.ofList
  | .peerAdded _ | .entryAdded _ | .recordRead _ | .userRead .. => isTrue trivial
  | .requestSend .. | .recipientAdded | .userFriendAdded .. | .recipientFriendAdded .. |
    .removeOuter .. | .removeInner .. => isFalse id

/-- What the record that is read leads to: its user is read again. -/
def recordLeads (email : UID → String) (T : Realtime.Tree Loc) (c : Client) (call : Call) (l : Loc)
    (v : Option (Val l)) : Multiset Users :=
  ((sideOf c call.list l v).toList.map fun side =>
    (shown email call (userOf l (T.lookup l) side) : Multiset Users)).sum

/-- What an entry leads to. -/
def entryLeads (email : UID → String) (T : Realtime.Tree Loc) (c : Client) (call : Call)
    (key : String) : Multiset Users :=
  recordLeads email T c call (call.list.record key) (T.lookup (call.list.record key))

/-- What a callback leads to for the array of `call`. -/
def taskLeads (email : UID → String) (T : Realtime.Tree Loc) (call : Call) :
    Task Loc Client Cb → Multiset Users
  | ⟨c, .peerAdded call', .childAdded peer⟩ =>
    if call' = call then
      ((T.children (friendRequestsWith c.uid peer)).map (entryLeads email T c call)).sum
    else 0
  | ⟨c, .entryAdded call', .childAdded key⟩ =>
    if call' = call then entryLeads email T c call key else 0
  | ⟨c, .recordRead call', .value l v⟩ =>
    if call' = call then recordLeads email T c call l v else 0
  | ⟨_, .userRead call' side, .value l v⟩ =>
    if call' = call then (shown email call (userOf l v side) : Multiset Users) else 0
  | _ => 0

/-- What a request leads to for the array of `call`. -/
def askLeads (email : UID → String) (T : Realtime.Tree Loc) (call : Call) :
    Client × Ask Loc Cb Unit → Multiset Users
  | (c, .childAdded p cb) =>
    ((T.children p).map fun k => taskLeads email T call ⟨c, cb, .childAdded k⟩).sum
  | (c, .value l cb) | (c, .single l cb) => taskLeads email T call ⟨c, cb, .value l (T.lookup l)⟩
  | (_, .putData ..) | (_, .downloadURL ..) => 0

/-- An entry leads to the user that the list is about. -/
theorem entryLeads_eq (key : String) : entryLeads email T call.client call key =
    shown email call (listedUser T call.client.uid call.list key) := by
  obtain ⟨c, list, query, id⟩ := call
  cases list with
  | friends =>
    simp only [entryLeads, recordLeads, FriendList.record, sideOf, shownSide, userOf, listedUser]
    cases hd : T.lookup (Loc.friends key) with
    | none => simp [shown]
    | some d =>
      simp only [Option.map_some, Option.toList_some, List.map_cons, List.map_nil, List.sum_cons,
        List.sum_nil, add_zero, FriendDict.other]
  | incoming | sent =>
    simp only [entryLeads, recordLeads, FriendList.record, sideOf, shownSide, userOf, listedUser,
      Option.toList_some, List.map_cons, List.map_nil, List.sum_cons, List.sum_nil, add_zero]
    rfl

/-- The entries of all keys together are the matches of the text. -/
theorem sum_entryLeads : ((indexKeys T call.client.uid call.list).map
    (entryLeads email T call.client call)).sum =
      (matching email T call.client.uid call.list call.query : Multiset Users) := by
  rw [matching_eq]
  induction indexKeys T call.client.uid call.list with
  | nil => rfl
  | cons key keys ih =>
    rw [List.map_cons, List.sum_cons, ih, entryLeads_eq, List.flatMap_cons, Multiset.coe_add]

/-- The request that opens a call leads to the matches of its text. -/
theorem askLeads_searchList (c : Client) (list : FriendList) (query id : String) :
    ledTo (askLeads email T call) c [searchList c list query id] =
      if ⟨c, list, query, id⟩ = call then
        (matching email T call.client.uid call.list call.query : Multiset Users) else 0 := by
  have hzero : ∀ keys : List String, (keys.map fun _ => (0 : Multiset Users)).sum = 0 := by
    simp
  rw [← sum_entryLeads]
  cases list with
  | friends =>
    simp only [ledTo, searchList, getAllFrinds, newAsks, List.filterMap_cons, List.filterMap_nil,
      List.map_cons, List.map_nil, List.sum_cons, List.sum_nil, add_zero, askLeads, taskLeads]
    split
    · next hc => rw [← hc]; rfl
    · exact hzero _
  | incoming | sent =>
    simp only [ledTo, searchList, getUsersWhoSendRequestToFriends, getUsersWhomFriendRequestBeenSend,
      newAsks, List.filterMap_cons, List.filterMap_nil, List.map_cons, List.map_nil, List.sum_cons,
      List.sum_nil, add_zero, askLeads, taskLeads]
    split
    · next hc =>
      rw [← hc]
      simp only [indexKeys, List.flatMap_def, List.map_flatten, List.sum_flatten, List.map_map]
      rfl
    · exact hzero _

theorem leads (email : UID → String) (T : Realtime.Tree Loc) (call : Call) :
    Leads (program email) Cb.ofList T (askLeads email T call) (taskLeads email T call)
      (fun app => (app.arrayUsers call : Multiset Users))
      (fun ev => opens call ev •
        (matching email T call.client.uid call.list call.query : Multiset Users)) where
  press {a e app c app' cmds} hact hcmds := by
    rw [program_act] at hact
    cases pressed_of_act hact with
    | send hpeer =>
      obtain ⟨a, he, -⟩ := hcmds _ List.mem_cons_self
      cases he
    | accept hpeer =>
      obtain ⟨a, he, -⟩ := hcmds _ List.mem_cons_self
      cases he
    | @search c list query =>
      rw [askLeads_searchList, opens]
      by_cases hc : ⟨c, list, query, e.key⟩ = call
      · rw [if_pos hc, if_pos hc, one_nsmul]
      · rw [if_neg hc, if_neg hc, zero_nsmul]
    | select | load => simp [ledTo, newAsks, opens]
  issues c e cb input app hcb cmd hcmd := by
    have hi : Issues email (.ran ⟨c, cb, input⟩ e) app c cmd := issues_of_handle hcmd
    cases hi with
    | peerEntries | readRecord | readFriend | readRequest => exact ⟨_, rfl, trivial⟩
    | recipientIndex | recipientFriendIndex | outer | inner | removeRequest | removeIndex |
      removeSenderIndex => exact hcb.elim
  run c e cb input app hcb := by
    rw [program_handle]
    cases cb with
    | peerAdded call' =>
      cases input with
      | childAdded peer =>
        simp only [handle, ledTo, newAsks, List.filterMap_cons, List.filterMap_nil, List.map_cons,
          List.map_nil, List.sum_cons, List.sum_nil, add_zero, askLeads, taskLeads]
        split <;> simp
      | acked | value | stored | url => rfl
    | entryAdded call' =>
      cases input with
      | childAdded key =>
        simp only [handle, ledTo, newAsks, List.filterMap_cons, List.filterMap_nil, List.map_cons,
          List.map_nil, List.sum_cons, List.sum_nil, add_zero, askLeads, taskLeads]
        split
        · next hc => rw [hc]; rfl
        · rfl
      | acked | value | stored | url => rfl
    | recordRead call' =>
      cases input with
      | value l v =>
        rw [handle_recordRead]
        simp only [taskLeads, recordLeads, ledTo]
        split
        · next hc =>
          rw [hc]
          cases sideOf c call.list l v <;> simp [newAsks, askLeads, taskLeads]
        · next hc => cases sideOf c call'.list l v <;> simp [newAsks, askLeads, taskLeads, hc]
      | acked | childAdded | stored | url => rfl
    | userRead call' side =>
      cases input with
      | value l v =>
        rw [handle_userRead, arrayUsers_userRead_eq, taskLeads]
        split <;> simp [ledTo, newAsks]
      | acked | childAdded | stored | url => rfl
    | requestSend | recipientAdded | userFriendAdded | recipientFriendAdded | removeOuter |
      removeInner => exact hcb.elim
  serve s hs c a ok hcb := by
    cases a with
    | childAdded p cb =>
      simp only [State.answer, hs.tree, List.map_map]
      rfl
    | value l cb | single l cb =>
      simp [State.answer, hs.view, askLeads]
    | putData p d cb | downloadURL p cb =>
      cases cb <;> simp [State.answer, askLeads, taskLeads]
  starts ev hev := by
    cases ev with
    | pressed a e => exact absurd rfl (hev a e)
    | ran | resolved | served | died => exact zero_nsmul _

/-! ## What the calls end with -/

/-- Nothing is in flight, and a call whose array holds something was opened. -/
structure Idle (s : FState) : Prop where
  quiescent : s.Quiescent
  keys : KeysFresh s
  arrayUsers : ∀ call, weigh (opens call) s.log = 0 → s.app.arrayUsers call = []

/-- The screen of the list is new, and nothing is in flight. -/
structure Unopened (c : Client) (list : FriendList) (s : FState) : Prop where
  quiescent : s.Quiescent
  keys : KeysFresh s
  arrayUsers : ∀ call, weigh (opens call) s.log = 0 → s.app.arrayUsers call = []
  usersArray : s.app.usersArray c list = []

/-- The runs in which lists are opened, searched and selected from, and nothing is written. -/
abbrev BrowsesLists (email : UID → String) : FState → FLabel → Prop :=
  Browses (program email) Cb.ofList

theorem Unopened.idle (hs : Unopened c list s) : Idle s :=
  ⟨hs.quiescent, hs.keys, hs.arrayUsers⟩

theorem idle_of_reaches {s₀ : FState} {ok : FState → FLabel → Prop} (hs : Start s₀)
    (h : Reaches (step (program email)) ok s₀ s) (hq : s.Quiescent) : Idle s where
  quiescent := hq
  keys := .of_reaches hs.initial h
  arrayUsers call hno := by
    by_contra hne
    have hpos := (callsOpened_of_reaches hs h).arrayUsers call hne
    omega

/-- In every run, a screen that shows nothing yet is new when nothing is in flight. -/
theorem unopened_of_reaches {s₀ : FState} {ok : FState → FLabel → Prop} (hs : Start s₀)
    (h : Reaches (step (program email)) ok s₀ s) (hq : s.Quiescent)
    (hnil : s.app.usersArray c list = []) : Unopened c list s where
  quiescent := hq
  keys := (idle_of_reaches hs h hq).keys
  arrayUsers := (idle_of_reaches hs h hq).arrayUsers
  usersArray := hnil

theorem Idle.onlyReads (hs : Idle s₁) : OnlyReads Cb.ofList s₁.tree s₁ := by
  refine ⟨hs.quiescent.writes, rfl, ?_, ?_⟩
  · simp [hs.quiescent.asks]
  · simp [hs.quiescent.tasks]

section Browsed

variable (hs : Idle s₁) (h : Reaches (step (program email)) (BrowsesLists email) s₁ s)
  (hq : s.Quiescent)
include hs h

theorem onlyReads_of_browses : OnlyReads Cb.ofList s₁.tree s :=
  (output_of_reaches hs.onlyReads (leads email s₁.tree ⟨⟨"", 0⟩, .friends, "", ""⟩) h).1

theorem tree_of_browses : s.tree = s₁.tree := (onlyReads_of_browses hs h).tree

/-- A call that was opened had nothing in its array before. -/
theorem opened_eq_one (hopened : weigh (opens call) (since s₁ s) ≠ 0) :
    weigh (opens call) (since s₁ s) = 1 ∧ s₁.app.arrayUsers call = [] := by
  have hfresh : KeysFresh s :=
    h.invariant hs.keys fun ht _ hstep => ht.step (transition_of_step hstep)
  have hlog := since_append (log_suffix h)
  have hone := opens_le_one hfresh call
  rw [← hlog, weigh_append] at hone
  exact ⟨by omega, hs.arrayUsers call (by omega)⟩

include hq

/-- When nothing is in flight, the array of a call has grown by the matches of its text, once for
each time that it was opened. -/
theorem arrayUsers_of_browses (call : Call) : (s.app.arrayUsers call : Multiset Users) =
    s₁.app.arrayUsers call + weigh (opens call) (since s₁ s) •
      (matching email s.tree call.client.uid call.list call.query : Multiset Users) := by
  have hsum := (output_of_reaches hs.onlyReads (leads email s₁.tree call) h).2
  simp only [inFlight, hs.quiescent.asks, hs.quiescent.tasks, hq.asks, hq.tasks, List.map_nil,
    List.sum_nil, add_zero] at hsum
  rw [hsum, tree_of_browses hs h, weigh, List.sum_smul, List.map_map]
  rfl

/-- A call that was opened ends with the matches of its text. -/
theorem arrayUsers_perm_matching (hopened : weigh (opens call) (since s₁ s) ≠ 0) :
    (s.app.arrayUsers call).Perm
      (matching email s.tree call.client.uid call.list call.query) := by
  obtain ⟨hone, hnil⟩ := opened_eq_one hs h hopened
  rw [← Multiset.coe_eq_coe, arrayUsers_of_browses hs h hq call, hone, hnil, one_nsmul,
    Multiset.coe_nil, zero_add]

end Browsed

/-! ## What the screen shows -/

/-- The call of the list to which an event delivers. -/
def deliversTo (email : UID → String) (c : Client) (list : FriendList) : FEvent → Option Call
  | .ran ⟨_, .userRead call side, .value l v⟩ _ =>
    if call.client = c ∧ call.list = list ∧ shown email call (userOf l v side) ≠ [] then some call
    else none
  | _ => none

/-- The call of the list that delivered last. -/
def lastDelivered (email : UID → String) (c : Client) (list : FriendList) (log : List FEvent) :
    Option Call :=
  log.findSome? (deliversTo email c list)

/-- The text with which an event opens the list. -/
def textOf (c : Client) (list : FriendList) : FEvent → Option String
  | .pressed (.search c' list' query) _ => if c' = c ∧ list' = list then some query else none
  | _ => none

/-- The text that is in the search box. -/
def finalText (c : Client) (list : FriendList) (log : List FEvent) : Option String :=
  log.findSome? (textOf c list)

/-- The screen shows the array of the call that delivered last, which has grown. -/
inductive Shows (app₁ app : App) (c : Client) (list : FriendList) : Option Call → Prop
  | nothing (husers : app.usersArray c list = [])
    (harrays : ∀ call, call.client = c → call.list = list →
      app.arrayUsers call = app₁.arrayUsers call) : Shows app₁ app c list none
  | array {call : Call} (hc : call.client = c) (hlist : call.list = list)
    (husers : app.usersArray c list = app.arrayUsers call)
    (hlt : (app₁.arrayUsers call).length < (app.arrayUsers call).length) :
    Shows app₁ app c list (some call)

/-- What is neither shown nor put into an array of the list leaves the screen as it is. -/
theorem Shows.congr {app₁ app app' : App} {last : Option Call} (h : Shows app₁ app c list last)
    (husers : app'.usersArray c list = app.usersArray c list)
    (harrays : ∀ call, call.client = c → call.list = list →
      app'.arrayUsers call = app.arrayUsers call) : Shows app₁ app' c list last := by
  cases h with
  | nothing hnil hsame =>
    exact .nothing (husers.trans hnil) fun call hc hlist =>
      (harrays call hc hlist).trans (hsame call hc hlist)
  | @array call hc hlist heq hlt =>
    have harray := harrays call hc hlist
    exact .array hc hlist (by rw [husers, heq, harray]) (by rwa [harray])

theorem Shows.press {a : Action} {e : Env} {app₁ app app' : App} {c' : Client}
    {cmds : List Command} {last : Option Call} (h : Shows app₁ app c list last)
    (hact : act email a e app = some (c', app', cmds)) : Shows app₁ app' c list last := by
  cases pressed_of_act hact <;> exact h.congr rfl fun _ _ _ => rfl

/-- A callback shows the array of the call that it delivers to, and no array shrinks. -/
theorem Shows.run {cb : Cb} {input : Input Loc} {e : Env} {app₁ app : App} {c' : Client}
    {log : List FEvent} (h : Shows app₁ app c list (lastDelivered email c list log))
    (hgrown : ∀ call, app₁.arrayUsers call <+: app.arrayUsers call) :
    Shows app₁ (handle email c' cb input app).1 c list
        (lastDelivered email c list (.ran ⟨c', cb, input⟩ e :: log)) ∧
      ∀ call, app₁.arrayUsers call <+: (handle email c' cb input app).1.arrayUsers call := by
  have keep : deliversTo email c list (.ran ⟨c', cb, input⟩ e) = none →
      (handle email c' cb input app).1.usersArray c list = app.usersArray c list →
      (∀ call, (handle email c' cb input app).1.arrayUsers call = app.arrayUsers call) →
      Shows app₁ (handle email c' cb input app).1 c list
          (lastDelivered email c list (.ran ⟨c', cb, input⟩ e :: log)) ∧
        ∀ call, app₁.arrayUsers call <+: (handle email c' cb input app).1.arrayUsers call := by
    intro hnone husers harrays
    rw [lastDelivered, List.findSome?_cons, hnone]
    exact ⟨h.congr husers fun call _ _ => harrays call, fun call => by
      rw [harrays]
      exact hgrown call⟩
  cases cb with
  | userRead call side =>
    cases input with
    | value l v =>
      rw [handle_userRead] at keep ⊢
      rcases userRead_cases email call (userOf l v side) app with
        ⟨hshown, hread⟩ | ⟨users, hshown, hread⟩
      · rw [hread] at keep ⊢
        exact keep (if_neg fun he => he.2.2 hshown) rfl fun _ => rfl
      · rw [hread]
        refine ⟨?_, fun call' => ?_⟩
        · rw [lastDelivered, List.findSome?_cons]
          by_cases hlist : call.client = c ∧ call.list = list
          · obtain ⟨rfl, rfl⟩ := hlist
            have hto : deliversTo email call.client call.list
                (.ran ⟨c', .userRead call side, .value l v⟩ e) = some call :=
              if_pos ⟨rfl, rfl, by simp [hshown]⟩
            rw [hto]
            refine .array rfl rfl (by simp [App.deliver]) ?_
            have hle := (hgrown call).length_le
            simp only [App.deliver, if_true, List.length_append, List.length_singleton]
            omega
          · have hto : deliversTo email c list
                (.ran ⟨c', .userRead call side, .value l v⟩ e) = none :=
              if_neg fun he => hlist ⟨he.1, he.2.1⟩
            rw [hto]
            refine h.congr (if_neg fun he => hlist ⟨he.1.symm, he.2.symm⟩) fun call' hc hlist' => ?_
            exact if_neg fun he => hlist ⟨by rw [← he, hc], by rw [← he, hlist']⟩
        · simp only [App.deliver]
          split
          · next hc =>
            rw [hc]
            exact (hgrown call).trans (List.prefix_append _ _)
          · exact hgrown call'
    | acked | childAdded | stored | url => exact keep rfl rfl fun _ => rfl
  | recordRead call =>
    cases input with
    | value l v =>
      rw [handle_recordRead] at keep ⊢
      exact keep rfl rfl fun _ => rfl
    | acked | childAdded | stored | url => exact keep rfl rfl fun _ => rfl
  | requestSend | recipientAdded | userFriendAdded | recipientFriendAdded | removeOuter |
    removeInner | peerAdded | entryAdded => cases input <;> exact keep rfl rfl fun _ => rfl

theorem shows_of_browses (hs : Unopened c list s₁)
    (h : Reaches (step (program email)) (BrowsesLists email) s₁ s) :
    Shows s₁.app s.app c list (lastDelivered email c list (since s₁ s)) := by
  refine (h.invariant_of_reached
    (I := fun s => Shows s₁.app s.app c list (lastDelivered email c list (since s₁ s)) ∧
      ∀ call, s₁.app.arrayUsers call <+: s.app.arrayUsers call) ?_
    fun {t l u} ht ih hl hstep => ?_).1
  · rw [since_self]
    exact ⟨.nothing hs.usersArray fun _ _ _ => rfl, fun _ => List.prefix_refl _⟩
  · have hsuffix := log_suffix ht
    cases transition_of_step hstep with
    | press _ hact =>
      rw [since_cons hsuffix rfl, State.pressed_app, arrayUsers_act hact]
      exact ⟨ih.1.press hact, ih.2⟩
    | @run i e t app cmds _ ht hrun =>
      have happ : (handle email t.client t.cb t.input _).1 = app := congrArg Prod.fst hrun
      rw [since_cons hsuffix rfl, State.ran_app, ← happ]
      exact ih.1.run ih.2
    | apply | reject | serve =>
      rw [since_cons hsuffix rfl]
      exact ih
    | die => exact hl.elim

/-- When nothing is in flight, the screen shows the matches of the final text exactly if the call
that delivered last has the same ones. -/
theorem shows_final_iff (hs : Unopened c list s₁)
    (h : Reaches (step (program email)) (BrowsesLists email) s₁ s) (hq : s.Quiescent)
    {text : String} (hfinal : finalText c list (since s₁ s) = some text) :
    (s.app.usersArray c list).Perm (matching email s.tree c.uid list text) ↔
      ∀ call ∈ lastDelivered email c list (since s₁ s),
        (matching email s.tree c.uid list call.query).Perm
          (matching email s.tree c.uid list text) := by
  have hshows := shows_of_browses hs h
  generalize lastDelivered email c list (since s₁ s) = last at hshows
  cases hshows with
  | nothing husers harrays =>
    refine iff_of_true ?_ (by simp)
    -- the call of the final text has shown nobody
    obtain ⟨ev, hev, htext⟩ := List.exists_of_findSome?_eq_some hfinal
    unfold textOf at htext
    split at htext
    · next c' list' query e =>
      split at htext
      · next hc =>
        obtain ⟨rfl, rfl⟩ := hc
        cases htext
        have hopened : weigh (opens ⟨c', list', text, e.key⟩) (since s₁ s) ≠ 0 := by
          have hle := le_weigh (f := opens ⟨c', list', text, e.key⟩) hev
          rw [opens, if_pos rfl] at hle
          omega
        have hperm := arrayUsers_perm_matching hs.idle h hq hopened
        rw [harrays _ rfl rfl, (opened_eq_one hs.idle h hopened).2] at hperm
        rw [husers]
        exact hperm
      · cases htext
    · cases htext
  | @array call hc hlist husers hlt =>
    have hopened : weigh (opens call) (since s₁ s) ≠ 0 := fun hzero => by
      have harray := arrayUsers_of_browses hs.idle h hq call
      rw [hzero, zero_nsmul, add_zero, Multiset.coe_eq_coe] at harray
      have := harray.length_eq
      omega
    have hperm := arrayUsers_perm_matching hs.idle h hq hopened
    rw [hc, hlist] at hperm
    rw [husers]
    constructor
    · rintro hshown _ ⟨⟩
      exact hperm.symm.trans hshown
    · intro hlast
      exact hperm.trans (hlast call rfl)

/-! ## A text that matches nobody -/

/-- Alice types the beginning of Bob's e-mail. -/
def typing : List FLabel := [
  .press (.search alice .friends "b") ⟨"x", 30⟩, .serve 0 true, .run 0 ⟨"x1", 31⟩, .serve 0 true,
  .run 0 ⟨"x2", 32⟩, .serve 0 true, .run 0 ⟨"x3", 33⟩]

/-- She goes on to an e-mail that nobody has. -/
def mistyping : List FLabel := typing ++ [
  .press (.search alice .friends "bx") ⟨"y", 34⟩, .serve 0 true, .run 0 ⟨"y1", 35⟩, .serve 0 true,
  .run 0 ⟨"y2", 36⟩, .serve 0 true, .run 0 ⟨"y3", 37⟩]

theorem mistyping_runs :
    (exec (step (program mail)) (BrowsesLists mail) consented mistyping).isSome = true := by
  decide +kernel

def mistyped : FState :=
  (exec (step (program mail)) (BrowsesLists mail) consented mistyping).get mistyping_runs

theorem typing_runs :
    (exec (step (program mail)) (BrowsesLists mail) consented typing).isSome = true := by
  decide +kernel

def typed : FState :=
  (exec (step (program mail)) (BrowsesLists mail) consented typing).get typing_runs

theorem unopened_consented : Unopened alice .friends consented := by
  have hrun : Reaches (step (program mail)) (Loads mail) start consented :=
    .of_exec (Option.some_get _).symm
  exact unopened_of_reaches start_start hrun ⟨rfl, rfl, rfl⟩ rfl

theorem shows_final_iff_typed :
    (typed.app.usersArray alice .friends).Perm (matching mail typed.tree "alice" .friends "b") := by
  refine (shows_final_iff unopened_consented (.of_exec (Option.some_get _).symm) ⟨rfl, rfl, rfl⟩
    rfl).2 fun call hcall => ?_
  obtain rfl : (⟨alice, .friends, "b", "x"⟩ : Call) = call := Option.some.inj hcall
  exact .refl _

/-- Bob stays on the screen when the text matches nobody. -/
theorem not_shows_final : Unopened alice .friends consented ∧
    Reaches (step (program mail)) (BrowsesLists mail) consented mistyped ∧ mistyped.Quiescent ∧
    finalText alice .friends (since consented mistyped) = some "bx" ∧
    ¬ (mistyped.app.usersArray alice .friends).Perm
      (matching mail mistyped.tree "alice" .friends "bx") := by
  refine ⟨unopened_consented, .of_exec (Option.some_get _).symm, ⟨rfl, rfl, rfl⟩, rfl, ?_⟩
  decide +kernel

end FLChat.Friends
