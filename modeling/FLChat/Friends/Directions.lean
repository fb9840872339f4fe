import FLChat.Friends.RequestOnce
import FLChat.Friends.SearchBox

/-!
# Sent and incoming requests

The index of a user has the requests of both directions under one path, and neither list of requests
looks at `fromId` or `toId`: each shows one side of the record and leaves out whoever has the own
e-mail. This tells the directions apart as long as every record that was ever written embeds users
with the e-mails of their accounts (`snapshots_genuine`), and a request is never sent to the own
e-mail. Over a database that was made so, a fresh list has exactly one entry for each request of its
direction that matches the text (`deliversOnce_of_browses`), and every request that is indexed is in
one of the two lists and, for the other user, in the other one (`told_apart`).
-/

namespace FLChat.Friends

open Realtime

variable {email : UID → String} {s₀ s₁ s : FState} {l : FLabel} {c : Client} {call : Call}
  {k : String} {d : RequestDict}

/-! ## What senders know -/

/-- Whoever sends has loaded the own profile, and the user that the search has found has the e-mail
of its account. -/
def Searched (email : UID → String) : Guard Loc Client Cb Unit App Action
  | .pressed (.sendFrienRequestBtnPressed c peer) _, app =>
    (app.user c).email = email c.uid ∧ peer.email = email peer.uid
  | _, _ => True

/-- The steps of a run in which this holds of whoever sends. -/
def Searching (email : UID → String) (s : FState) : FLabel → Prop
  | .press (.sendFrienRequestBtnPressed c peer) _ =>
    (s.app.user c).email = email c.uid ∧ peer.email = email peer.uid
  | _ => True

instance (s : FState) : DecidablePred (Searching email s)
  | .press (.sendFrienRequestBtnPressed c peer) _ =>
    inferInstanceAs (Decidable ((s.app.user c).email = email c.uid ∧ peer.email = email peer.uid))
  | .press (.addUsertoFriendsBtnPressed ..) _ | .press (.search ..) _ |
    .press (.didSelectItemAt ..) _ | .press (.profileLoaded ..) _ | .run _ _ | .commit _ _ |
    .serve _ _ | .die _ => isTrue trivial

theorem Searching.searched (h : Searching email s l) : (Searched email).Holds s l := by
  cases l with
  | press a e => cases a <;> exact h
  | run => exact fun _ _ => trivial
  | commit | serve | die => trivial

theorem searched_of_reaches (hs : Start s₀)
    (h : Reaches (step (program email)) (Searching email) s₀ s) : Traced email (Searched email) s :=
  .of_reaches hs (fun _ hl => hl.searched) h

/-- Whatever is in the database while something is in flight is there with nothing in flight as
well. -/
theorem content_of_reaches (h : Reaches (step (program email)) (Searching email) s₀ s) :
    ∃ s₁, Reaches (step (program email)) (Searching email) s₀ s₁ ∧ s₁.Quiescent ∧
      s₁.tree = s.tree := by
  have hdie : ∀ t c, Searching email t (.die c) := fun _ _ => trivial
  obtain ⟨s₁, hreach, hq, htree⟩ := exists_quiescent hdie s
  exact ⟨s₁, h.trans hreach, hq, htree⟩

/-- The users of a record have the e-mails of their accounts. -/
theorem snapshots_genuine (hf : Traced email (Searched email) s)
    (hd : s.tree.lookup (.friendRequest k) = some d) :
    Genuine email d.fromId d.fromIdUser ∧ Genuine email d.toId d.toIdUser := by
  obtain ⟨c, hr⟩ := hf.values _ _ trivial hd
  obtain ⟨cb, hi⟩ := hf.origin.log _ hr
  obtain ⟨ev, -, app, hsearched, hi⟩ := issues_of_issued hi
  cases hi with
  | request => exact ⟨⟨rfl, hsearched.1⟩, rfl, hsearched.2⟩

/-! ## What a fresh list is about -/

/-- The account that a list shows of a request: the recipient of one that was sent, the sender of an
incoming one. -/
def FriendList.otherId (list : FriendList) (d : RequestDict) : UID :=
  match list with
  | .sent => d.toId
  | .friends | .incoming => d.fromId

/-- The key is in the index of `uid`, its record has the direction of the list, and the e-mail of
the other account contains the text. -/
def FriendList.Selects (list : FriendList) (email : UID → String) (T : Realtime.Tree Loc)
    (uid : UID) (query : String) (k : String) : Prop :=
  ∃ (peer : UID) (d : RequestDict), .userFriendRequest uid peer k ∈ T ∧
    T.lookup (.friendRequest k) = some d ∧ list.concerns uid d ∧
    containsText (email (list.otherId d)) query = true

/-- What a list shows of the request `k`. -/
def FriendList.entryOf (list : FriendList) (T : Realtime.Tree Loc) (k : String) : Option Users :=
  (T.lookup (Loc.friendRequest k)).map fun d => list.entry (RequestDict.side d list.requestSide)

/-- The call was opened. -/
def Opened (call : Call) (log : List FEvent) : Prop :=
  ∃ e, .pressed (.search call.client call.list call.query) e ∈ log ∧ e.key = call.id

/-- The call has delivered exactly one entry for each of the requests that it is about. -/
structure DeliversOnce (email : UID → String) (call : Call) (s₁ s : FState) (ks : List String) :
    Prop where
  nodup : ks.Nodup
  selected : ∀ k, k ∈ ks ↔ call.list.Selects email s.tree call.client.uid call.query k
  delivered : ((delivered email call (since s₁ s)).map fun x => (x.1, some x.2)).Perm
    (ks.map fun k => (k, call.list.entryOf s.tree k))
  shown : s.app.arrayUsers call = (Friends.delivered email call (since s₁ s)).map Prod.snd

/-- The call has delivered an entry for the request `k`. -/
def Appears (email : UID → String) (call : Call) (s₁ s : FState) (k : String) : Prop :=
  k ∈ (delivered email call (since s₁ s)).map Prod.fst

theorem DeliversOnce.appears_iff {ks : List String} (h : DeliversOnce email call s₁ s ks) :
    Appears email call s₁ s k ↔ call.list.Selects email s.tree call.client.uid call.query k := by
  rw [← h.selected k, Appears]
  have hkeys := (h.delivered.map Prod.fst).mem_iff (a := k)
  simpa [List.map_map, Function.comp_def] using hkeys

theorem length_filter_filterMap {α β : Type} (f : α → Option β) (p : β → Bool) (xs : List α) :
    ((xs.filterMap f).filter p).length = (xs.filter fun x => (f x).any p).length := by
  induction xs with
  | nil => rfl
  | cons x xs ih =>
    cases hx : f x with
    | none => simp [hx, ih]
    | some y => cases hp : p y <;> simp [hx, hp, ih]

/-- Elements that are all in a list of the same length are the whole list. -/
theorem perm_of_subset_of_length {α : Type} {xs ys : List α} (hnodup : xs.Nodup) (h : xs ⊆ ys)
    (hlength : ys.length = xs.length) : ys.Perm xs :=
  ((List.subperm_of_subset hnodup h).perm_of_length_le hlength.le).symm

/-! ## What a fresh list delivers -/

/-- The keys of the index whose shown user passes the filter of the list. -/
def pickedKeys (email : UID → String) (T : Realtime.Tree Loc) (uid : UID) (list : FriendList)
    (query : String) : List String :=
  (indexKeys T uid list).filter fun k => (listedUser T uid list k).any fun user =>
    containsText user.email query && decide (user.email ≠ email uid)

theorem length_matching (email : UID → String) (T : Realtime.Tree Loc) (uid : UID)
    (list : FriendList) (query : String) :
    (matching email T uid list query).length = (pickedKeys email T uid list query).length := by
  rw [matching, List.length_map, length_filter_filterMap]
  rfl

theorem mem_indexKeys {T : Realtime.Tree Loc} {uid : UID} {list : FriendList}
    (hlist : list ≠ .friends) :
    k ∈ indexKeys T uid list ↔ ∃ peer, .userFriendRequest uid peer k ∈ T := by
  have hmem : k ∈ (T.children (friendRequestsOf uid)).flatMap
      (fun peer => T.children (friendRequestsWith uid peer)) ↔
        ∃ peer, Loc.userFriendRequest uid peer k ∈ T := by
    constructor
    · intro hk
      obtain ⟨peer, -, hk⟩ := List.mem_flatMap.1 hk
      obtain ⟨l, hl, hkey⟩ := Tree.mem_children.1 hk
      obtain rfl := childKey_friendRequestsWith.1 hkey
      exact ⟨peer, hl⟩
    · rintro ⟨peer, hmem⟩
      exact List.mem_flatMap.2 ⟨peer,
        Tree.mem_children.2 ⟨_, hmem, childKey_friendRequestsOf.2 ⟨k, rfl⟩⟩,
        Tree.mem_children.2 ⟨_, hmem, childKey_friendRequestsWith.2 rfl⟩⟩
  cases list with
  | friends => exact absurd rfl hlist
  | incoming | sent => exact hmem

theorem listedUser_eq {T : Realtime.Tree Loc} {uid : UID} {list : FriendList}
    (hlist : list ≠ .friends) : listedUser T uid list k =
      (T.lookup (Loc.friendRequest k)).map fun d => RequestDict.side d list.requestSide := by
  cases list with
  | friends => exact absurd rfl hlist
  | incoming | sent => rfl

/-- A request is in the index with one peer, so its key is there once. -/
theorem indexKeys_nodup {G : Guard Loc Client Cb Unit App Action} (hf : Traced email G s)
    {uid : UID} {list : FriendList} (hlist : list ≠ .friends) :
    (indexKeys s.tree uid list).Nodup := by
  have hnodup : ((s.tree.children (friendRequestsOf uid)).flatMap
      fun peer => s.tree.children (friendRequestsWith uid peer)).Nodup := by
    refine List.nodup_flatMap.2 ⟨fun peer _ => Tree.children_nodup _ _, ?_⟩
    refine (Tree.children_nodup _ _).imp fun {peer peer'} hne k hk hk' => hne ?_
    obtain ⟨l, hl, hkey⟩ := Tree.mem_children.1 hk
    obtain rfl := childKey_friendRequestsWith.1 hkey
    obtain ⟨l', hl', hkey'⟩ := Tree.mem_children.1 hk'
    obtain rfl := childKey_friendRequestsWith.1 hkey'
    exact hf.peer_unique (hf.origin.tree _ hl) (hf.origin.tree _ hl')
  cases list with
  | friends => exact absurd rfl hlist
  | incoming | sent => exact hnodup

theorem email_of_side {list : FriendList} (hfrom : Genuine email d.fromId d.fromIdUser)
    (hto : Genuine email d.toId d.toIdUser) :
    (d.side list.requestSide).email = email (list.otherId d) := by
  cases list with
  | friends | incoming => exact hfrom.2
  | sent => exact hto.2

theorem mem_pickedKeys {T : Realtime.Tree Loc} {uid : UID} {list : FriendList} {query : String}
    (hlist : list ≠ .friends) : k ∈ pickedKeys email T uid list query ↔
      ∃ (peer : UID) (d : RequestDict), .userFriendRequest uid peer k ∈ T ∧
        T.lookup (.friendRequest k) = some d ∧
        matchesQuery query (d.side list.requestSide).email (email uid) = true := by
  rw [pickedKeys, List.mem_filter, mem_indexKeys hlist, listedUser_eq hlist]
  constructor
  · rintro ⟨⟨peer, hentry⟩, hpick⟩
    cases hd : T.lookup (Loc.friendRequest k) with
    | none =>
      rw [hd] at hpick
      cases hpick
    | some d =>
      rw [hd] at hpick
      exact ⟨peer, d, hentry, rfl, (matchesQuery_eq ..).trans hpick⟩
  · rintro ⟨peer, d, hentry, hd, hmatch⟩
    refine ⟨⟨peer, hentry⟩, ?_⟩
    rw [hd]
    exact (matchesQuery_eq ..).symm.trans hmatch

section Produced

variable (hs : Start s₀) (h₁ : Reaches (step (program email)) (Searching email) s₀ s₁)
include hs h₁

/-- The requests that pass the filter are those that the list is about. -/
theorem selects_iff (hlist : call.list ≠ .friends) :
    call.list.Selects email s₁.tree call.client.uid call.query k ↔
      ∃ (peer : UID) (d : RequestDict), .userFriendRequest call.client.uid peer k ∈ s₁.tree ∧
        s₁.tree.lookup (.friendRequest k) = some d ∧
        matchesQuery call.query (d.side call.list.requestSide).email (email call.client.uid) =
          true := by
  have hf := searched_of_reaches hs h₁
  refine exists_congr fun peer => exists_congr fun d => and_congr_right fun hentry =>
    and_congr_right fun hd => ?_
  obtain ⟨hfrom, hto⟩ := snapshots_genuine hf hd
  have hshows := hf.shows_iff hlist ⟨hentry, hd⟩ hfrom hto
  rw [matchesQuery_eq, Bool.and_eq_true, decide_eq_true_eq, ← hshows, email_of_side hfrom hto,
    FriendList.shows, email_of_side hfrom hto]
  exact and_comm

variable (hq₁ : s₁.Quiescent) (h : Reaches (step (program email)) (BrowsesLists email) s₁ s)
include hq₁ h

/-- Nothing is written while the lists are browsed. -/
theorem keepsUp_of_browses : Reaches (step (program email)) (KeepsUp c) s₁ s := by
  have hidle := idle_of_reaches hs h₁ hq₁
  induction h with
  | refl => exact .refl
  | @tail t u l ht hl hstep ih =>
    refine ih.tail ?_ hstep
    cases l with
    | commit i ok =>
      refine .inr fun w hw => ?_
      rw [(onlyReads_of_browses hidle ht).writes] at hw
      cases hw
    | die => exact hl.elim
    | press | run | serve => trivial

variable (hq : s.Quiescent)
include hq

/-- A fresh list delivers exactly one entry for each request that it is about. -/
theorem deliversOnce_of_browses (hlist : call.list ≠ .friends)
    (hopened : Opened call (since s₁ s)) :
    DeliversOnce email call s₁ s (pickedKeys email s.tree call.client.uid call.list call.query) := by
  obtain ⟨e, hev, hid⟩ := hopened
  have hidle := idle_of_reaches hs h₁ hq₁
  have htree := tree_of_browses hidle h
  have hany : Reaches (step (program email)) AnyStep s₀ s₁ := h₁.mono fun _ _ _ => trivial
  have hkeeps := keepsUp_of_browses (c := call.client) hs h₁ hq₁ h
  have hnew : weigh (opens call) s₁.log = 0 := by
    have hzero := opens_eq_zero hs hany h hev
    rwa [hid] at hzero
  have hopens : weigh (opens call) (since s₁ s) ≠ 0 := by
    have hle := le_weigh (f := opens call) hev
    rw [opens, hid, if_pos rfl] at hle
    omega
  have hshown : s.app.arrayUsers call = (delivered email call (since s₁ s)).map Prod.snd :=
    arrayUsers_of_delivered (fun t hl => hl rfl) (hidle.arrayUsers _ hnew) hkeeps
  have hkeys : (pickedKeys email s.tree call.client.uid call.list call.query).Nodup :=
    (indexKeys_nodup (traced_since hs hany h) hlist).filter _
  refine ⟨hkeys, fun k => ?_, ?_, hshown⟩
  · rw [mem_pickedKeys hlist, htree]
    exact (selects_iff hs h₁ hlist).symm
  · -- each of the keys is delivered, and there are as many entries as keys
    have hmem : ∀ k ∈ pickedKeys email s.tree call.client.uid call.list call.query,
        (k, call.list.entryOf s.tree k) ∈
          (delivered email call (since s₁ s)).map fun x => (x.1, some x.2) := by
      intro k hk
      obtain ⟨peer, d, hentry, hd, hmatch⟩ := (mem_pickedKeys hlist).1 hk
      have hdelivered := delivered_of_pending hs hany hlist hnew hkeeps hq hid hev ⟨hentry, hd⟩
        hmatch
      refine List.mem_map.2 ⟨_, hdelivered, ?_⟩
      rw [FriendList.entryOf, hd]
      rfl
    have hlength : (delivered email call (since s₁ s)).length =
        (pickedKeys email s.tree call.client.uid call.list call.query).length := by
      rw [← length_matching, ← (arrayUsers_perm_matching hidle h hq hopens).length_eq, hshown,
        List.length_map]
    refine perm_of_subset_of_length (hkeys.map fun k k' he => (Prod.mk.inj he).1) ?_ ?_
    · intro x hx
      obtain ⟨k, hk, rfl⟩ := List.mem_map.1 hx
      exact hmem k hk
    · rw [List.length_map, List.length_map, hlength]

end Produced

/-! ## The two directions -/

/-- A request in the index of two users was sent by one of them to the other. -/
theorem Traced.participants {G : Guard Loc Client Cb Unit App Action} (hf : Traced email G s)
    {uid peer : UID} (hp : PendingRequest s uid peer k d) :
    d.fromId = uid ∧ d.toId = peer ∨ d.fromId = peer ∧ d.toId = uid :=
  hf.between_unique (.inl (hf.sentBy_of_lookup hp.record))
    (hf.between_of_written (hf.origin.tree _ hp.entry))

/-- Nobody sends a request to the own account. -/
theorem fromId_ne_toId (hf : Traced email (Searched email) s)
    (hd : s.tree.lookup (.friendRequest k) = some d) : d.fromId ≠ d.toId := by
  intro hsame
  have hne := hf.toIdUser_ne hd
  rw [(snapshots_genuine hf hd).2.2, hsame] at hne
  exact hne rfl

/-- Without a text to search for, a list is about all requests of its direction. -/
theorem selects_empty {uid peer : UID} (hp : PendingRequest s uid peer k d) (list : FriendList) :
    list.Selects email s.tree uid "" k ↔ list.concerns uid d := by
  constructor
  · rintro ⟨peer', d', -, hd, hconcerns, -⟩
    rw [hp.record] at hd
    cases hd
    exact hconcerns
  · intro hconcerns
    exact ⟨peer, d, hp.entry, hp.record, hconcerns, containsText_empty _⟩

/-- A list of `uid` that was opened with an empty search box. -/
structure Unfiltered (list : FriendList) (uid : UID) (log : List FEvent) (call : Call) : Prop where
  list_eq : call.list = list
  uid_eq : call.client.uid = uid
  query : call.query = ""
  opened : Opened call log

/-- What the fresh lists of requests show of a database. -/
structure ToldApart (email : UID → String) (s₁ s : FState) : Prop where
  /-- A list has one entry for each request of its direction whose other account matches the
  text. -/
  delivers : ∀ call : Call, call.list ≠ .friends → Opened call (since s₁ s) →
    ∃ ks, DeliversOnce email call s₁ s ks
  /-- A request in the index of a user is in exactly one of the two lists. -/
  oneList : ∀ (uid peer : UID) (k : String) (d : RequestDict) (sent incoming : Call),
    PendingRequest s uid peer k d → Unfiltered .sent uid (since s₁ s) sent →
    Unfiltered .incoming uid (since s₁ s) incoming →
    Xor (Appears email sent s₁ s k) (Appears email incoming s₁ s k)
  /-- A request in the index of both users is sent for one of them if it is incoming for the
  other. -/
  opposite : ∀ (uid peer : UID) (k : String) (d : RequestDict) (sent incoming : Call),
    PendingRequest s uid peer k d → PendingRequest s peer uid k d →
    Unfiltered .sent uid (since s₁ s) sent → Unfiltered .incoming peer (since s₁ s) incoming →
    (Appears email sent s₁ s k ↔ Appears email incoming s₁ s k)

section Fresh

variable (hs : Start s₀) (h₁ : Reaches (step (program email)) (Searching email) s₀ s₁)
  (hq₁ : s₁.Quiescent) (h : Reaches (step (program email)) (BrowsesLists email) s₁ s)
  (hq : s.Quiescent)
include hs h₁ hq₁ h hq

/-- A list that nothing is searched in has the requests of its direction. -/
theorem appears_iff_concerns {list : FriendList} {uid peer : UID} (hlist : list ≠ .friends)
    (hcall : Unfiltered list uid (since s₁ s) call) (hp : PendingRequest s uid peer k d) :
    Appears email call s₁ s k ↔ list.concerns uid d := by
  obtain ⟨rfl, rfl, hquery, hopened⟩ := hcall
  have hdelivers := deliversOnce_of_browses hs h₁ hq₁ h hq hlist hopened
  rw [hdelivers.appears_iff, hquery]
  exact selects_empty hp call.list

/-- Over every database that senders have made who knew their own e-mail and had the e-mail of the
recipient from the search, fresh lists tell sent and incoming requests apart. -/
theorem told_apart : ToldApart email s₁ s where
  delivers call hlist hopened := ⟨_, deliversOnce_of_browses hs h₁ hq₁ h hq hlist hopened⟩
  oneList uid peer k d sent incoming hp hsent hincoming := by
    have hf := searched_of_reaches hs h₁
    have htree := tree_of_browses (idle_of_reaches hs h₁ hq₁) h
    have hp₁ : PendingRequest s₁ uid peer k d := ⟨htree ▸ hp.entry, htree ▸ hp.record⟩
    have hne := fromId_ne_toId hf hp₁.record
    rw [appears_iff_concerns hs h₁ hq₁ h hq (by decide) hsent hp,
      appears_iff_concerns hs h₁ hq₁ h hq (by decide) hincoming hp]
    rcases hf.participants hp₁ with ⟨hfrom, -⟩ | ⟨-, hto⟩
    · refine .inl ⟨hfrom, fun hto => hne ?_⟩
      exact hfrom.trans (Eq.symm hto)
    · refine .inr ⟨hto, fun hfrom => hne ?_⟩
      exact Eq.trans hfrom hto.symm
  opposite uid peer k d sent incoming hp hp' hsent hincoming := by
    have hf := searched_of_reaches hs h₁
    have htree := tree_of_browses (idle_of_reaches hs h₁ hq₁) h
    have hp₁ : PendingRequest s₁ uid peer k d := ⟨htree ▸ hp.entry, htree ▸ hp.record⟩
    have hne := fromId_ne_toId hf hp₁.record
    rw [appears_iff_concerns hs h₁ hq₁ h hq (by decide) hsent hp,
      appears_iff_concerns hs h₁ hq₁ h hq (by decide) hincoming hp']
    rcases hf.participants hp₁ with ⟨hfrom, hto⟩ | ⟨hfrom, hto⟩
    · exact iff_of_true hfrom hto
    · refine iff_of_false (fun hfrom' => hne ?_) fun hto' => hne ?_
      · exact Eq.trans hfrom' hto.symm
      · exact hfrom.trans (Eq.symm hto')

end Fresh

theorem searched_runs :
    (exec (step (program mail)) (Searching mail) start asking).isSome = true := by
  decide +kernel

/-- Bob has a request of Alice. -/
def searched : FState :=
  (exec (step (program mail)) (Searching mail) start asking).get searched_runs

/-- Alice opens both of her lists, and Bob opens his incoming one. -/
def opening : List FLabel := [
  .press (.search alice .sent "") ⟨"s", 10⟩, .serve 0 true, .run 0 ⟨"s1", 11⟩, .serve 0 true,
  .run 0 ⟨"s2", 12⟩, .serve 0 true, .run 0 ⟨"s3", 13⟩, .serve 0 true, .run 0 ⟨"s4", 14⟩,
  .press (.search alice .incoming "") ⟨"i", 15⟩, .serve 0 true, .run 0 ⟨"i1", 16⟩, .serve 0 true,
  .run 0 ⟨"i2", 17⟩, .serve 0 true, .run 0 ⟨"i3", 18⟩, .serve 0 true, .run 0 ⟨"i4", 19⟩,
  .press (.search bob .incoming "") ⟨"j", 20⟩, .serve 0 true, .run 0 ⟨"j1", 21⟩, .serve 0 true,
  .run 0 ⟨"j2", 22⟩, .serve 0 true, .run 0 ⟨"j3", 23⟩, .serve 0 true, .run 0 ⟨"j4", 24⟩]

theorem opening_runs :
    (exec (step (program mail)) (BrowsesLists mail) searched opening).isSome = true := by
  decide +kernel

def opened : FState :=
  (exec (step (program mail)) (BrowsesLists mail) searched opening).get opening_runs

theorem told_apart_opened : ToldApart mail searched opened :=
  told_apart start_start (.of_exec (Option.some_get _).symm) ⟨rfl, rfl, rfl⟩
    (.of_exec (Option.some_get _).symm) ⟨rfl, rfl, rfl⟩

/-- Alice sees her request among the sent ones only, and Bob sees it. -/
example : (delivered mail ⟨alice, .sent, "", "s"⟩ opened.log).map Prod.fst = ["k"] ∧
    delivered mail ⟨alice, .incoming, "", "i"⟩ opened.log = [] ∧
    (delivered mail ⟨bob, .incoming, "", "j"⟩ opened.log).map Prod.fst = ["k"] := by
  decide +kernel

end FLChat.Friends
