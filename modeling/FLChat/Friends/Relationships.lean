import FLChat.Friends.IndexAgreement

/-!
# One record for each press

Neither a send nor an accept looks at the tree, so pressing twice makes two records. When nothing is
in flight, the friends records of two users are, key by key, the accepts that were pressed between
them. The pending requests of one user to another are the sends that he pressed, until an accept
between the two is pressed; after one nothing is pending, where every entry of a request is written
in sight of the observers (`relationships`).
-/

namespace FLChat.Friends

open Realtime

variable {email : UID → String} {G : Guard Loc Client Cb Unit App Action} {s₀ s : FState}
  {f t u v : UID} {k : String}

/-! ## Keys of records and of presses -/

def friendKey (f t : UID) : Sigma (Val : Loc → Type) → Option String
  | ⟨.friends k, d⟩ => if d.fromId = f ∧ d.toId = t then some k else none
  | _ => none

def requestKey (f t : UID) : Sigma (Val : Loc → Type) → Option String
  | ⟨.friendRequest k, d⟩ => if d.fromId = f ∧ d.toId = t then some k else none
  | _ => none

def acceptKey (f t : UID) : FEvent → Option String
  | .pressed (.addUsertoFriendsBtnPressed c peer) e =>
    if peer.uid = f ∧ c.uid = t then some e.key else none
  | _ => none

def sendKey (f t : UID) : FEvent → Option String
  | .pressed (.sendFrienRequestBtnPressed c peer) e =>
    if c.uid = f ∧ peer.uid = t then some e.key else none
  | _ => none

/-- The keys of the friends records from `f` to `t`. -/
def friendKeys (tree : Realtime.Tree Loc) (f t : UID) : List String :=
  tree.entries.filterMap (friendKey f t)

/-- The keys of the requests from `f` to `t`. -/
def requestKeys (tree : Realtime.Tree Loc) (f t : UID) : List String :=
  tree.entries.filterMap (requestKey f t)

/-- The keys of the accepts of `f` by `t`. -/
def acceptKeys (log : List FEvent) (f t : UID) : List String := log.filterMap (acceptKey f t)

/-- The keys of the sends by `f` to `t`. -/
def sendKeys (log : List FEvent) (f t : UID) : List String := log.filterMap (sendKey f t)

theorem friendKey_eq_some {e : Sigma (Val : Loc → Type)} : friendKey f t e = some k ↔
    ∃ d : FriendDict, e = ⟨.friends k, d⟩ ∧ d.fromId = f ∧ d.toId = t := by
  constructor
  · intro h
    unfold friendKey at h
    split at h
    · next k' d =>
      obtain ⟨hd, hk⟩ := Option.ite_none_right_eq_some.1 h
      cases hk
      exact ⟨d, rfl, hd⟩
    · cases h
  · rintro ⟨d, rfl, hd⟩
    exact if_pos hd

theorem requestKey_eq_some {e : Sigma (Val : Loc → Type)} : requestKey f t e = some k ↔
    ∃ d : RequestDict, e = ⟨.friendRequest k, d⟩ ∧ d.fromId = f ∧ d.toId = t := by
  constructor
  · intro h
    unfold requestKey at h
    split at h
    · next k' d =>
      obtain ⟨hd, hk⟩ := Option.ite_none_right_eq_some.1 h
      cases hk
      exact ⟨d, rfl, hd⟩
    · cases h
  · rintro ⟨d, rfl, hd⟩
    exact if_pos hd

theorem acceptKey_eq_some {ev : FEvent} : acceptKey f t ev = some k ↔
    ∃ c peer e, ev = .pressed (.addUsertoFriendsBtnPressed c peer) e ∧
      (peer.uid = f ∧ c.uid = t) ∧ e.key = k := by
  constructor
  · intro h
    unfold acceptKey at h
    split at h
    · next c peer e =>
      obtain ⟨hft, hk⟩ := Option.ite_none_right_eq_some.1 h
      exact ⟨c, peer, e, rfl, hft, Option.some.inj hk⟩
    · cases h
  · rintro ⟨c, peer, e, rfl, hft, rfl⟩
    exact if_pos hft

theorem sendKey_eq_some {ev : FEvent} : sendKey f t ev = some k ↔
    ∃ c peer e, ev = .pressed (.sendFrienRequestBtnPressed c peer) e ∧
      (c.uid = f ∧ peer.uid = t) ∧ e.key = k := by
  constructor
  · intro h
    unfold sendKey at h
    split at h
    · next c peer e =>
      obtain ⟨hft, hk⟩ := Option.ite_none_right_eq_some.1 h
      exact ⟨c, peer, e, rfl, hft, Option.some.inj hk⟩
    · cases h
  · rintro ⟨c, peer, e, rfl, hft, rfl⟩
    exact if_pos hft

theorem mem_friendKeys {tree : Realtime.Tree Loc} : k ∈ friendKeys tree f t ↔
    ∃ d, tree.lookup (.friends k) = some d ∧ d.fromId = f ∧ d.toId = t := by
  simp only [friendKeys, List.mem_filterMap, friendKey_eq_some]
  constructor
  · rintro ⟨e, he, d, rfl, hd⟩
    exact ⟨d, AList.mem_lookup_iff.2 he, hd⟩
  · rintro ⟨d, hd, hft⟩
    exact ⟨_, AList.mem_lookup_iff.1 hd, d, rfl, hft⟩

theorem mem_requestKeys {tree : Realtime.Tree Loc} : k ∈ requestKeys tree f t ↔
    ∃ d, tree.lookup (.friendRequest k) = some d ∧ d.fromId = f ∧ d.toId = t := by
  simp only [requestKeys, List.mem_filterMap, requestKey_eq_some]
  constructor
  · rintro ⟨e, he, d, rfl, hd⟩
    exact ⟨d, AList.mem_lookup_iff.2 he, hd⟩
  · rintro ⟨d, hd, hft⟩
    exact ⟨_, AList.mem_lookup_iff.1 hd, d, rfl, hft⟩

theorem mem_acceptKeys {log : List FEvent} : k ∈ acceptKeys log f t ↔ Accepted log f t k := by
  simp only [acceptKeys, List.mem_filterMap, acceptKey_eq_some]
  constructor
  · rintro ⟨ev, hev, c, peer, e, rfl, ⟨hf, ht⟩, hk⟩
    exact ⟨c, ht, peer, e, hev, hf, hk⟩
  · rintro ⟨c, ht, peer, e, hev, hf, hk⟩
    exact ⟨_, hev, c, peer, e, rfl, ⟨hf, ht⟩, hk⟩

theorem mem_sendKeys {log : List FEvent} : k ∈ sendKeys log f t ↔ Sent log f t k := by
  simp only [sendKeys, List.mem_filterMap, sendKey_eq_some]
  constructor
  · rintro ⟨ev, hev, c, peer, e, rfl, ⟨hf, ht⟩, hk⟩
    exact ⟨c, hf, peer, e, hev, ht, hk⟩
  · rintro ⟨c, hf, peer, e, hev, ht, hk⟩
    exact ⟨_, hev, c, peer, e, rfl, ⟨hf, ht⟩, hk⟩

theorem nodup_of_locs (loc : String → Loc) {g : Sigma (Val : Loc → Type) → Option String}
    (h : ∀ e k, g e = some k → e.1 = loc k) (tree : Realtime.Tree Loc) :
    (tree.entries.filterMap g).Nodup := by
  have hnodup : (tree.entries.filterMap fun e => some e.1).Nodup := by
    rw [List.filterMap_eq_map']
    exact tree.nodupKeys
  exact (nodup_map_filterMap (k := loc) (fun e k hk => congrArg some (h e k hk)) hnodup).of_map _

theorem friendKeys_nodup (tree : Realtime.Tree Loc) (f t : UID) : (friendKeys tree f t).Nodup := by
  refine nodup_of_locs .friends (fun e k hk => ?_) tree
  obtain ⟨d, rfl, -⟩ := friendKey_eq_some.1 hk
  rfl

theorem requestKeys_nodup (tree : Realtime.Tree Loc) (f t : UID) :
    (requestKeys tree f t).Nodup := by
  refine nodup_of_locs .friendRequest (fun e k hk => ?_) tree
  obtain ⟨d, rfl, -⟩ := requestKey_eq_some.1 hk
  rfl

theorem acceptKeys_nodup (h : KeysFresh s) (f t : UID) : (acceptKeys s.log f t).Nodup := by
  have hnodup := nodup_map_filterMap (g := acceptKey f t) (k := id) (fun ev k hk => ?_) h.nodup
  · rwa [List.map_id] at hnodup
  · obtain ⟨c, peer, e, rfl, -, rfl⟩ := acceptKey_eq_some.1 hk
    rfl

theorem sendKeys_nodup (h : KeysFresh s) (f t : UID) : (sendKeys s.log f t).Nodup := by
  have hnodup := nodup_map_filterMap (g := sendKey f t) (k := id) (fun ev k hk => ?_) h.nodup
  · rwa [List.map_id] at hnodup
  · obtain ⟨c, peer, e, rfl, -, rfl⟩ := sendKey_eq_some.1 hk
    rfl

/-! ## When nothing is in flight -/

/-- A friends record is the one of its accept. -/
theorem Facts.accepted_of_lookup (hf : Facts email G s) {d : FriendDict}
    (hd : s.tree.lookup (.friends k) = some d) : Accepted s.log d.fromId d.toId k := by
  obtain ⟨c, hr⟩ := hf.values _ _ trivial hd
  obtain ⟨cb, hi⟩ := hf.origin.log _ hr
  obtain ⟨ev, hev, app, -, hi⟩ := issues_of_issued hi
  cases hi with
  | friend => exact ⟨_, rfl, _, _, hev, rfl, rfl⟩

theorem not_rejected_of_reaches (hs : Start s₀)
    (h : Reaches (step (program email)) Succeeds s₀ s) {c : Client} {op : Op Loc} {ok : Bool}
    (hr : .resolved c op ok ∈ s.log) : ok = true := by
  cases ok with
  | true => rfl
  | false => exact (rejected_of_reaches (Q := fun _ => False) hs.initial (fun _ _ _ hl _ => nomatch hl)
      h hr).elim

section Quiescent

variable (hs : Start s₀) (h : Reaches (step (program email)) Succeeds s₀ s) (hq : s.Quiescent)
include hs h hq

/-- Every accept has made its record. -/
theorem friends_of_accepted (hacc : Accepted s.log f t k) {l : Loc}
    (hl : l ∈ friendshipLocs f t k) : l ∈ s.tree := by
  have hf := facts_of_reaches hs (fun _ _ => Succeeds.proceeds) h
  obtain ⟨c, d, ok, hr⟩ := hf.friendship_resolved hq hacc hl
  cases not_rejected_of_reaches hs h hr
  exact hf.friendship_kept (friendship_of_mem hl d) ⟨c, d, hr⟩

theorem friendKeys_perm (f t : UID) : (friendKeys s.tree f t).Perm (acceptKeys s.log f t) := by
  have hf := facts_of_reaches hs (fun _ _ => Succeeds.proceeds) h
  refine (List.perm_ext_iff_of_nodup (friendKeys_nodup _ _ _)
    (acceptKeys_nodup hf.keys _ _)).2 fun k => ?_
  rw [mem_friendKeys, mem_acceptKeys]
  constructor
  · rintro ⟨d, hd, rfl, rfl⟩
    exact hf.accepted_of_lookup hd
  · intro hacc
    have hmem := friends_of_accepted hs h hq hacc (mem_friendshipLocs.2 (.inl rfl))
    obtain ⟨d, hd⟩ := Option.isSome_iff_exists.1 (AList.lookup_isSome.2 hmem)
    exact ⟨d, hd, hf.accepted_unique (hf.accepted_of_lookup hd) hacc⟩

/-- Until an accept between the two is pressed, every send is pending. -/
theorem requestKeys_perm (hno : ∀ a, ¬ Accepted s.log f t a ∧ ¬ Accepted s.log t f a) :
    (requestKeys s.tree f t).Perm (sendKeys s.log f t) := by
  have hf := facts_of_reaches hs (fun _ _ => Succeeds.proceeds) h
  refine (List.perm_ext_iff_of_nodup (requestKeys_nodup _ _ _)
    (sendKeys_nodup hf.keys _ _)).2 fun k => ?_
  rw [mem_requestKeys, mem_sendKeys]
  constructor
  · rintro ⟨d, hd, rfl, rfl⟩
    exact hf.sentBy_of_lookup hd
  · intro hsent
    have hstays := stays_of_not_ran hf hq (keptOrTold_of_reaches hs (fun _ _ => Succeeds.proceeds) h)
      (.inl hsent) (by
        rintro ⟨c, t', f', name, e, hev, hft⟩
        obtain ⟨a, hacc⟩ := hf.accepted_of_removeInner (.inr ⟨e, hev⟩)
        rcases hft with ⟨rfl, rfl⟩ | ⟨rfl, rfl⟩
        · exact (hno a).1 hacc
        · exact (hno a).2 hacc)
    obtain ⟨d, hd⟩ := Option.isSome_iff_exists.1 (AList.lookup_isSome.2 hstays.1)
    exact ⟨d, hd, hf.sent_unique (hf.sentBy_of_lookup hd) hsent⟩

/-- Once there is a friends record of the two, nothing between them is pending. -/
theorem requestKeys_eq_nil (hfriends : friendKeys s.tree f t ≠ []) :
    requestKeys s.tree f t = [] ∧ requestKeys s.tree t f = [] := by
  have hf := facts_of_reaches hs (fun _ _ => Succeeds.proceeds) h
  obtain ⟨a, ha⟩ := List.exists_mem_of_ne_nil _ hfriends
  obtain ⟨d, hd, rfl, rfl⟩ := mem_friendKeys.1 ha
  have gone : ∀ k, Between s.log d.fromId d.toId k → Loc.friendRequest k ∉ s.tree := fun k =>
    record_gone hf hq (keptOrTold_of_reaches hs (fun _ _ => Succeeds.proceeds) h)
      (recordCleared_of_reaches hs (fun _ _ => Succeeds.proceeds) h) (hf.accepted_of_lookup hd)
  have none : ∀ u v, (∀ k, Sent s.log u v k → Between s.log d.fromId d.toId k) →
      requestKeys s.tree u v = [] := by
    intro u v hbetween
    refine List.eq_nil_iff_forall_not_mem.2 fun k hk => ?_
    obtain ⟨r, hr, rfl, rfl⟩ := mem_requestKeys.1 hk
    exact gone k (hbetween k (hf.sentBy_of_lookup hr))
      (AList.lookup_isSome.1 (Option.isSome_of_eq_some hr))
  exact ⟨none _ _ fun _ => .inl, none _ _ fun _ => .inr⟩

/-- When nothing is in flight, there is one friends record for each accept that was pressed, and one
pending request for each send as long as no accept between the two was pressed. No request is pending
beside a friends record, if every index entry was written where the observers of the accepts see
it. -/
theorem relationships (u v : UID) :
    (friendKeys s.tree u v).Perm (acceptKeys s.log u v) ∧
      (requestKeys s.tree u v).Subperm (sendKeys s.log u v) ∧
      (acceptKeys s.log u v ++ acceptKeys s.log v u = [] →
        (requestKeys s.tree u v).Perm (sendKeys s.log u v)) ∧
      (Reaches (step (program email)) (Unshadowed u v) s₀ s →
        friendKeys s.tree u v ++ friendKeys s.tree v u ≠ [] → requestKeys s.tree u v = []) := by
  have hf := facts_of_reaches hs (fun _ _ => Succeeds.proceeds) h
  refine ⟨friendKeys_perm hs h hq u v, ?_, fun hno => ?_, fun _ hfriends => ?_⟩
  · refine List.subperm_of_subset (requestKeys_nodup _ _ _) fun k hk => ?_
    obtain ⟨d, hd, rfl, rfl⟩ := mem_requestKeys.1 hk
    exact mem_sendKeys.2 (hf.sentBy_of_lookup hd)
  · obtain ⟨hno, hno'⟩ := List.append_eq_nil_iff.1 hno
    refine requestKeys_perm hs h hq fun a => ⟨fun hacc => ?_, fun hacc => ?_⟩
    · have := mem_acceptKeys.2 hacc
      rw [hno] at this
      cases this
    · have := mem_acceptKeys.2 hacc
      rw [hno'] at this
      cases this
  · by_cases hnil : friendKeys s.tree u v = []
    · rw [hnil, List.nil_append] at hfriends
      exact (requestKeys_eq_nil hs h hq hfriends).2
    · exact (requestKeys_eq_nil hs h hq hnil).1

end Quiescent

theorem relationships_befriended :
    (friendKeys tidied.tree "alice" "bob").Perm ["f"] ∧
      requestKeys tidied.tree "alice" "bob" = [] :=
  have h := relationships start_start (tidied_reached.mono fun _ _ hl => hl.succeeds)
    ⟨rfl, rfl, rfl⟩ "alice" "bob"
  ⟨h.1, h.2.2.2 (tidied_reached.mono fun _ _ hl => hl.unshadowed) (by decide +kernel)⟩

/-! ## Pressing twice -/

/-- Alice sends Bob two requests. -/
def askingTwice : List FLabel := [
  .press (.sendFrienRequestBtnPressed alice (found "bob")) ⟨"k", 1⟩,
  .press (.sendFrienRequestBtnPressed alice (found "bob")) ⟨"k2", 2⟩, .commit 0 true,
  .commit 0 true, .commit 0 true, .commit 0 true, .run 0 ⟨"a1", 3⟩, .commit 0 true,
  .run 0 ⟨"a2", 4⟩, .commit 0 true, .run 0 ⟨"a3", 5⟩, .run 0 ⟨"a4", 6⟩]

theorem askingTwice_runs :
    (exec (step (program mail)) Succeeds start askingTwice).isSome = true := by
  decide +kernel

def askedTwice : FState := (exec (step (program mail)) Succeeds start askingTwice).get askingTwice_runs

/-- Bob presses the accept button twice. -/
def acceptingTwice : List FLabel := [
  acceptAlice, .press (.addUsertoFriendsBtnPressed bob (found "alice")) ⟨"g", 11⟩, .commit 0 true,
  .commit 0 true, .commit 0 true, .commit 0 true, .run 0 ⟨"b5", 12⟩, .commit 0 true,
  .run 0 ⟨"b6", 13⟩, .commit 0 true, .run 0 ⟨"b7", 14⟩, .serve 0 true, .run 0 ⟨"b8", 15⟩,
  .serve 0 true, .run 0 ⟨"b9", 16⟩, .serve 0 true, .run 0 ⟨"b10", 17⟩, .serve 0 true,
  .run 0 ⟨"b11", 18⟩, .commit 0 true, .commit 0 true, .commit 0 true, .run 0 ⟨"b12", 19⟩,
  .commit 0 true, .commit 0 true, .commit 0 true, .run 0 ⟨"b13", 20⟩, .run 0 ⟨"b14", 21⟩]

theorem acceptingTwice_runs :
    (exec (step (program mail)) Succeeds asked acceptingTwice).isSome = true := by
  decide +kernel

def acceptedTwice : FState :=
  (exec (step (program mail)) Succeeds asked acceptingTwice).get acceptingTwice_runs

/-- Two users have at most one friends record. -/
def FriendsUnique (s : FState) : Prop :=
  ∀ u v, (friendKeys s.tree u v ++ friendKeys s.tree v u).length ≤ 1

/-- At most one request of one user to another is pending. -/
def RequestsUnique (s : FState) : Prop := ∀ u v, (requestKeys s.tree u v).length ≤ 1

/-- Where there is a friends record, no request is pending. -/
def FriendsExclude (s : FState) : Prop :=
  ∀ u v, friendKeys s.tree u v ++ friendKeys s.tree v u ≠ [] → requestKeys s.tree u v = []

/-- `Q` holds whenever nothing is in flight. -/
def AtRest (email : UID → String) (Q : FState → Prop) : Prop :=
  ∀ s₀ s, Start s₀ → Reaches (step (program email)) Succeeds s₀ s → s.Quiescent → Q s

def RelationshipsUnique (s : FState) : Prop :=
  FriendsUnique s ∧ RequestsUnique s ∧ FriendsExclude s

/-- Two sends leave two pending requests, and two accepts make two friends records. -/
theorem not_relationshipsUnique : ¬ AtRest mail RelationshipsUnique ∧
    ¬ AtRest mail RequestsUnique ∧ ¬ AtRest mail FriendsUnique := by
  have hrequests : ¬ AtRest mail RequestsUnique := fun h => by
    have := h start askedTwice start_start (.of_exec (Option.some_get _).symm) ⟨rfl, rfl, rfl⟩
      "alice" "bob"
    revert this
    decide +kernel
  have hfriends : ¬ AtRest mail FriendsUnique := fun h => by
    have := h start acceptedTwice start_start
      (asked_reached.trans (.of_exec (Option.some_get _).symm)) ⟨rfl, rfl, rfl⟩ "alice" "bob"
    revert this
    decide +kernel
  exact ⟨fun h => hrequests fun s₀ s hs hrun hq => (h s₀ s hs hrun hq).2.1, hrequests, hfriends⟩

end FLChat.Friends
