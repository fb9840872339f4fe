import FLChat.Friends.Profiles
import FLChat.Friends.Relationships

/-!
# The records of the entries

A friends record is written before its entries and never again, so an entry always has its record
(`friends_of_entry`), the record stays as it is (`lookup_friends_mono`), and the two reads of
`getAllFrinds` both find it (`friend_of_recordRead`, `friend_of_userRead`).
-/

namespace FLChat.Friends

open Realtime

variable {email : UID → String} {s₀ s t : FState} {c : Client} {call : Call} {u : UID} {k : String}

/-! ## A record is there before its entries and stays -/

section Record

variable (hs : Start s₀) (h : Reaches (step (program email)) Succeeds s₀ s)
include hs h

theorem acceptedBy_of_entry (hw : Written s.log (.userFriends u k)) :
    ∃ c f, AcceptedBy s.log c f k ∧ (u = c.uid ∨ u = f) := by
  have hf := facts_of_reaches hs (fun _ _ => Succeeds.proceeds) h
  obtain ⟨c, n, hr⟩ := hw
  obtain ⟨cb, hi⟩ := hf.origin.log _ hr
  obtain ⟨ev, hev, app, -, hi⟩ := issues_of_issued hi
  cases hi with
  | friendIndex => exact ⟨_, _, ⟨_, _, hev, rfl, rfl⟩, .inl rfl⟩
  | recipientFriendIndex =>
    exact ⟨_, _, Traced.acceptedBy_of_userFriendAdded (hf.origin.log _ hev), .inr rfl⟩

/-- The record of an entry is there. -/
theorem friends_of_entry (hw : Written s.log (.userFriends u k)) :
    ∃ d, s.tree.lookup (.friends k) = some d := by
  have hf := facts_of_reaches hs (fun _ _ => Succeeds.proceeds) h
  obtain ⟨c, f, ⟨peer, e, hev, -, rfl⟩, -⟩ := acceptedBy_of_entry hs h hw
  obtain ⟨app, c', app', cmds, -, hact, hp⟩ := hf.progressed.pressed _ _ hev
  rw [program_act] at hact
  cases pressed_of_act hact with
  | accept =>
    rcases hp _ List.mem_cons_self with hwait | ⟨ok, hr, -⟩
    · exact absurd rfl (recordSettled_of_reaches hs h _ hw.answered
        rfl _ hwait (.friends e.key) _ rfl rfl)
    · cases not_rejected_of_reaches hs h hr
      exact Option.isSome_iff_exists.1 (AList.lookup_isSome.2 (hf.friendship_kept
        (v := (⟨peer.uid, peer, c.uid, app.params c, e.now, true⟩ : FriendDict)) rfl ⟨_, _, hr⟩))

/-- Nothing writes or removes the record of an entry. -/
theorem not_touches_friends (hw : Written s.log (.friends k)) {w : Write Loc Client Cb}
    (hmem : w ∈ s.writes) : w.op.touches (.friends k) = false := by
  have hf := facts_of_reaches hs (fun _ _ => Succeeds.proceeds) h
  have hi := hf.origin.writes w hmem
  cases hop : w.op with
  | update l d =>
    refine decide_eq_false fun hl => ?_
    subst hl
    obtain ⟨c, d', hr⟩ := hw
    have htwo : TwoSided s.log (.friends k) := trivial
    exact not_waiting_of_resolved hs (fun _ _ => Succeeds.proceeds) h htwo hr hmem d hop
  | remove p =>
    obtain ⟨c, d, -⟩ := hw
    rw [hop] at hi
    simp only [Op.touches]
    refine Bool.eq_false_iff.2 fun hp => ?_
    exact Facts.not_remove_friendship (v := d) hi rfl (List.isPrefixOf_iff_prefix.1 hp)

end Record

/-- A friends record stays as it is. -/
theorem lookup_friends_mono (hs : Start s₀) (ht : Reaches (step (program email)) Succeeds s₀ t)
    (h : Reaches (step (program email)) Succeeds t s) {d : FriendDict}
    (hd : t.tree.lookup (.friends k) = some d) : s.tree.lookup (.friends k) = some d := by
  induction h with
  | refl => exact hd
  | @tail t' u l ht' hl hstep ih =>
    have hrun := ht.trans ht'
    have hf := facts_of_reaches hs (fun _ _ => Succeeds.proceeds) hrun
    have hw : Written t'.log (.friends k) :=
      hf.origin.tree _ (AList.lookup_isSome.1 (Option.isSome_of_eq_some ih))
    cases transition_of_step hstep with
    | apply hw' =>
      rw [State.applied_tree, Op.lookup_apply_of_not_touches
        (not_touches_friends hs hrun hw (List.mem_of_getElem? hw'))]
      exact ih
    | press | run | reject | serve | die => exact ih

/-! ## Both reads find the record -/

section Reads

variable (hs : Start s₀) (h : Reaches (step (program email)) Succeeds s₀ s)
include hs h

/-- A reply about an entry's record carries the record. -/
theorem friend_of_reply {cb : Cb} {v : Option FriendDict}
    (hread : ∀ t, Reaches (step (program email)) Succeeds s₀ t →
      (c, .single (.friends k) cb) ∈ t.asks ∨ (c, .value (.friends k) cb) ∈ t.asks ∨
        ⟨c, .friends k, cb⟩ ∈ t.valueObs → ∃ u, Written t.log (.userFriends u k))
    (hdue : Due s ⟨c, cb, .value (.friends k) v⟩) :
    ∃ d, v = some d ∧ s.tree.lookup (.friends k) = some d := by
  obtain ⟨t, ht, ht', hv⟩ := reply_of_reaches hs.initial h hdue
  -- at that moment the record is there and nothing that waits changes it
  have found : (∃ u, Written t.log (.userFriends u k)) → ∃ d, t.tree.lookup (.friends k) = some d ∧
      ∀ w ∈ t.writes, w.op.touches (.friends k) = false := by
    rintro ⟨u, hw⟩
    obtain ⟨d, hd⟩ := friends_of_entry hs ht hw
    have hf := facts_of_reaches hs (fun _ _ => Succeeds.proceeds) ht
    have hrecord := hf.origin.tree _ (AList.lookup_isSome.1 (Option.isSome_of_eq_some hd))
    exact ⟨d, hd, fun w hw => not_touches_friends hs ht hrecord hw⟩
  rcases hv with ⟨hask, rfl⟩ | ⟨w, hw, hobs, -, rfl⟩
  · obtain ⟨d, hd, hwait⟩ := found (hread t ht (hask.imp_right .inl))
    refine ⟨d, lookup_view hd rfl fun w hw _ htouch => ?_, lookup_friends_mono hs ht ht' hd⟩
    rw [hwait w hw] at htouch
    cases htouch
  · obtain ⟨d, hd, hwait⟩ := found (hread t ht (.inr (.inr hobs)))
    exact ⟨d, (Op.lookup_apply_of_not_touches (hwait w hw) _).trans hd,
      lookup_friends_mono hs ht ht' hd⟩

theorem friend_of_recordRead {dict : Option FriendDict}
    (hdue : Due s ⟨c, .recordRead call, .value (.friends k) dict⟩) :
    ∃ d, dict = some d ∧ s.tree.lookup (.friends k) = some d := by
  refine friend_of_reply hs h (fun t ht hread => ?_) hdue
  have hf := facts_of_reaches hs (fun _ _ => Succeeds.proceeds) ht
  have hvalue : ¬ Issued (program email) anyApp t.log c
      (.ask (.value (.friends k) (.recordRead call))) := fun hi => by
    obtain ⟨call', side, he⟩ := Traced.userRead_of_value hi
    cases he
  rcases hread with hask | hask | hobs
  · obtain ⟨k', he, -, entry, hentry, hw⟩ := hf.recordRead_issued (hf.origin.asks _ hask)
    cases hlist : call.list with
    | friends =>
      rw [hlist] at he hentry
      cases he
      cases hentry
      exact ⟨_, hw⟩
    | incoming | sent =>
      rw [hlist] at he
      cases he
  · exact absurd (hf.origin.asks _ hask) hvalue
  · exact absurd (hf.origin.valueObs _ hobs) hvalue

/-- A friend is read on the side of the other user. -/
theorem friend_of_side {side : Side}
    (hread : ReadSide s.log c call (.friends k) side) :
    call.client = c ∧ call.list = .friends ∧ Written s.log (.userFriends c.uid k) ∧
      ∃ d, s.tree.lookup (.friends k) = some d ∧
        side = if c.uid = d.fromId then .toIdUser else .fromIdUser := by
  have hf := facts_of_reaches hs (fun _ _ => Succeeds.proceeds) h
  cases hread with
  | friends hev hside =>
    obtain ⟨k', he, hc, entry, hentry, hw⟩ := hf.recordRead_of_reply (hf.origin.log _ hev)
    obtain ⟨d, rfl, hd⟩ := friend_of_recordRead hs h (.inr ⟨_, hev⟩)
    cases hlist : call.list with
    | friends =>
      rw [hlist] at he hside hentry
      cases he
      cases hentry
      exact ⟨hc, rfl, hw, d, hd, (Option.some.inj hside).symm⟩
    | incoming | sent =>
      rw [hlist] at he
      cases he

theorem friend_of_userRead {side : Side} {v : Option FriendDict}
    (hdue : Due s ⟨c, .userRead call side, .value (.friends k) v⟩) :
    call.client = c ∧ call.list = .friends ∧ Written s.log (.userFriends c.uid k) ∧
      ∃ d, v = some d ∧ s.tree.lookup (.friends k) = some d ∧
        side = if c.uid = d.fromId then .toIdUser else .fromIdUser := by
  have hf := facts_of_reaches hs (fun _ _ => Succeeds.proceeds) h
  obtain ⟨hc, hlist, hw, d, hd, hside⟩ :=
    friend_of_side hs h (Traced.userRead_of_reply (hf.origin.due hdue))
  obtain ⟨d', rfl, hd'⟩ := friend_of_reply hs h (fun t ht hread => by
    have hf := facts_of_reaches hs (fun _ _ => Succeeds.proceeds) ht
    rcases hread with hask | hask | hobs
    · obtain ⟨call', he⟩ := Traced.recordRead_of_single (hf.origin.asks _ hask)
      cases he
    · exact ⟨_, (friend_of_side hs ht (Traced.userRead_issued (hf.origin.asks _ hask))).2.2.1⟩
    · exact ⟨_, (friend_of_side hs ht (Traced.userRead_issued (hf.origin.valueObs _ hobs))).2.2.1⟩)
    hdue
  obtain rfl : d = d' := Option.some.inj (hd.symm.trans hd')
  exact ⟨hc, hlist, hw, d, rfl, hd, hside⟩

end Reads

end FLChat.Friends
