import FLChat.Friends.Requests
import FLChat.Realtime.Counting

/-!
# Every location is written once

A press draws a fresh key and starts one chain of completions for it (`chain_le_one`), so that each
record and each index entry is written by one command of one step (`source_le_one`). What was
answered therefore never waits again (`not_waiting_of_resolved`), and is answered once
(`resolved_once`). The entries of a user with himself are left out: there both sides of the index
are the same location.
-/

namespace FLChat.Friends

open Realtime

variable {email : UID → String} {G : Guard Loc Client Cb Unit App Action} {s₀ s : FState}

/-! ## One chain for each key -/

/-- The completion belongs to the chain of the key `k`. -/
def Cb.ofKey (k : String) : Cb → Bool
  | .requestSend key _ _ | .userFriendAdded key _ _ => decide (key = k)
  | _ => false

def chainWeight (k : String) : Weight Loc Client Cb Unit Action where
  write w := if w.completion.any (Cb.ofKey k) then 1 else 0
  task
    | ⟨_, cb, .acked _⟩ => if cb.ofKey k then 1 else 0
    | _ => 0
  event
    | .ran ⟨_, cb, .acked _⟩ _ => if cb.ofKey k then 1 else 0
    | _ => 0

/-- The press that starts the chain of the key `k`. -/
def startsChain (k : String) : FEvent → ℕ
  | .pressed (.sendFrienRequestBtnPressed ..) e | .pressed (.addUsertoFriendsBtnPressed ..) e =>
    if e.key = k then 1 else 0
  | _ => 0

theorem chainWeight_balanced (k : String) :
    Balanced (program email) (chainWeight k) (startsChain k) s where
  press a e c app cmds hact := by
    cases pressed_of_act hact with
    | send =>
      simp [sendFrienRequestBtnPressed, friendRequestIntoDB, userFriendRequestIntoDB, chainWeight,
        startsChain, Cb.ofKey]
    | accept =>
      simp [addUsertoFriendsBtnPressed, friendIntoDB, userFriendIntoDB, chainWeight, startsChain,
        Cb.ofKey]
    | @search c list query => cases list <;> rfl
    | select | load => rfl
  run t ht e := by
    obtain ⟨c, cb, input⟩ := t
    simp only [program_handle]
    cases cb with
    | requestSend | userFriendAdded =>
      cases input with
      | acked ok =>
        simp [handle, recipientsUserFriendRequestIntoDB, recipientsUserFriendIntoDB, chainWeight,
          startsChain, Cb.ofKey]
      | childAdded | value | stored | url => rfl
    | recordRead call =>
      cases input with
      | value l v => cases l <;> simp [handle, chainWeight, startsChain, Weight.cmds_eq_zero]
      | acked | childAdded | stored | url => rfl
    | recipientAdded | recipientFriendAdded | removeOuter | removeInner | peerAdded | entryAdded =>
      cases input <;> rfl
    | userRead call side =>
      cases input with
      | value l v => cases l <;> rfl
      | acked | childAdded | stored | url => rfl
  write w hw ok := by
    obtain ⟨c, op, cb⟩ := w
    cases cb <;> simp [Write.ack, chainWeight, startsChain]
  raise w hw t ht := by
    obtain ⟨o, -, -, rfl⟩ := mem_valueEvents.1 ht
    rfl
  remove w hw p hp o ho := .inl fun _ => rfl
  observe c p cb ha ok := rfl
  serve c a ha hne ok := by
    cases a with
    | childAdded p cb => exact absurd rfl (hne _ _)
    | value | single | putData | downloadURL => rfl

theorem startsChain_le_one (h : KeysFresh s) (k : String) : weigh (startsChain k) s.log ≤ 1 := by
  refine weigh_le_one (k := k) h.nodup (fun ev _ => ?_) fun ev _ hne => ?_
  · unfold startsChain
    split
    · split <;> simp
    · split <;> simp
    · simp
  · unfold startsChain at hne
    split at hne
    · split at hne
      · next hk => rw [Event.key?, hk]
      · exact absurd rfl hne
    · split at hne
      · next hk => rw [Event.key?, hk]
      · exact absurd rfl hne
    · exact absurd rfl hne

/-- The chain of a key completes a write at most once. -/
theorem chain_le_one {ok : FState → FLabel → Prop} (hs : Start s₀) (hok : NoDeath ok)
    (h : Reaches (step (program email)) ok s₀ s) (k : String) :
    weigh (chainWeight k).event s.log ≤ 1 := by
  have htotal := total_of_reaches hs.initial hok (fun t _ => chainWeight_balanced k) h
  have hann : (chainWeight k).announced s = 0 := weigh_eq_zero fun o _ => weigh_eq_zero fun _ _ => rfl
  have hone := startsChain_le_one (.of_reaches hs.initial h) k
  unfold Weight.total at htotal
  omega

/-! ## One write for each location -/

def Updates (l : Loc) : Op Loc → Bool
  | .update l' _ => decide (l' = l)
  | .remove _ => false

def locWeight (l : Loc) : Weight Loc Client Cb Unit Action where
  write w := if Updates l w.op then 1 else 0
  event
    | .resolved _ op _ => if Updates l op then 1 else 0
    | _ => 0

theorem locWeight_write {l : Loc} {w : Write Loc Client Cb} {v : Val l}
    (hop : w.op = .update l v) : (locWeight l).write w = 1 := by
  simp [locWeight, hop, Updates]

@[simp] theorem locWeight_resolved (l : Loc) (c : Client) (v : Val l) (ok : Bool) :
    (locWeight l).event (.resolved c (.update l v) ok) = 1 := by
  simp [locWeight, Updates]

/-- The writes of `l` by a press. -/
def pressSource (l : Loc) : FEvent → ℕ
  | .pressed (.sendFrienRequestBtnPressed c peer) e =>
    if .friendRequest e.key = l ∨ .userFriendRequest c.uid peer.uid e.key = l then 1 else 0
  | .pressed (.addUsertoFriendsBtnPressed c _) e =>
    if .friends e.key = l ∨ .userFriends c.uid e.key = l then 1 else 0
  | _ => 0

/-- The writes of `l` by a completion. -/
def ranSource (l : Loc) : FEvent → ℕ
  | .ran ⟨c, .requestSend key toId _, .acked _⟩ _ =>
    if .userFriendRequest toId c.uid key = l then 1 else 0
  | .ran ⟨_, .userFriendAdded key fromId _, .acked _⟩ _ =>
    if .userFriends fromId key = l then 1 else 0
  | _ => 0

theorem locWeight_balanced (l : Loc) :
    Balanced (program email) (locWeight l) (fun ev => pressSource l ev + ranSource l ev) s where
  press a e c app cmds hact := by
    cases pressed_of_act hact with
    | send =>
      cases l <;> simp [sendFrienRequestBtnPressed, friendRequestIntoDB, userFriendRequestIntoDB,
        locWeight, Updates, pressSource, ranSource]
    | accept =>
      cases l <;> simp [addUsertoFriendsBtnPressed, friendIntoDB, userFriendIntoDB, locWeight,
        Updates, pressSource, ranSource]
    | @search c list query => cases list <;> rfl
    | select | load => rfl
  run t ht e := by
    obtain ⟨c, cb, input⟩ := t
    simp only [program_handle]
    cases cb with
    | requestSend | userFriendAdded =>
      cases input with
      | acked ok =>
        simp [handle, recipientsUserFriendRequestIntoDB, recipientsUserFriendIntoDB, locWeight,
          Updates, pressSource, ranSource]
      | childAdded | value | stored | url => rfl
    | removeInner toId fromId userName =>
      cases input with
      | childAdded key => simp [handle, removeInner, locWeight, Updates, pressSource, ranSource]
      | acked | value | stored | url => rfl
    | recordRead call =>
      cases input with
      | value l' v =>
        cases l' <;> simp [handle, locWeight, pressSource, ranSource, Weight.cmds_eq_zero]
      | acked | childAdded | stored | url => rfl
    | recipientAdded | recipientFriendAdded | removeOuter | peerAdded | entryAdded =>
      cases input <;> rfl
    | userRead call side =>
      cases input with
      | value l' v => cases l' <;> rfl
      | acked | childAdded | stored | url => rfl
  write w hw ok := by
    obtain ⟨c, op, cb⟩ := w
    have hack : weigh (locWeight l).task (Write.ack ⟨c, op, cb⟩ ok) = 0 := weigh_eq_zero fun _ _ => rfl
    rw [hack]
    simp [locWeight, pressSource, ranSource]
  raise w hw t ht := rfl
  remove w hw p hp o ho := .inl fun _ => rfl
  observe c p cb ha ok := rfl
  serve c a ha hne ok := by
    have hans : weigh (locWeight l).task (s.answer c a ok) = 0 := weigh_eq_zero fun _ _ => rfl
    rw [hans]
    rfl

/-- The two sides of the entry are not the same location. -/
def TwoSided (log : List FEvent) : Loc → Prop
  | .friendRequest _ | .friends _ => True
  | .userFriendRequest u v _ => u ≠ v
  | .userFriends _ k => ∀ f t, Accepted log f t k → f ≠ t

theorem pressSource_le_one (h : KeysFresh s) (l : Loc) : weigh (pressSource l) s.log ≤ 1 := by
  refine weigh_le_one (k := l.key) h.nodup (fun ev _ => ?_) fun ev _ hne => ?_
  · unfold pressSource
    split
    · split <;> simp
    · split <;> simp
    · simp
  · unfold pressSource at hne
    split at hne
    · split at hne
      · next hl => rcases hl with rfl | rfl <;> rfl
      · exact absurd rfl hne
    · split at hne
      · next hl => rcases hl with rfl | rfl <;> rfl
      · exact absurd rfl hne
    · exact absurd rfl hne

/-- What a completion writes belongs to the chain of its key. -/
theorem ranSource_le (l : Loc) (ev : FEvent) : ranSource l ev ≤ (chainWeight l.key).event ev := by
  unfold ranSource
  split
  · split
    · next hl => simp [← hl, chainWeight, Loc.key, Cb.ofKey]
    · exact Nat.zero_le _
  · split
    · next hl => simp [← hl, chainWeight, Loc.key, Cb.ofKey]
    · exact Nat.zero_le _
  · exact Nat.zero_le _

/-- A location is written by a press or by a completion, not by both. -/
theorem pressSource_eq_zero (hf : Facts email G s) {l : Loc} (hl : TwoSided s.log l)
    {ev ev' : FEvent} (hev : ev ∈ s.log) (hran : ranSource l ev ≠ 0) (hev' : ev' ∈ s.log) :
    pressSource l ev' = 0 := by
  by_contra hpress
  unfold ranSource at hran
  split at hran
  · next c k t name ok e =>
    split at hran
    · next he =>
      subst he
      have hsent : Sent s.log c.uid t k := ⟨c, rfl, (hf.sentBy_of_requestSend (hf.origin.log _ hev)).1⟩
      unfold pressSource at hpress
      split at hpress
      · next c' peer e' =>
        have hsent' : Sent s.log t c.uid k := by
          simp only [reduceCtorEq, Loc.userFriendRequest.injEq, false_or, ite_eq_right_iff,
            one_ne_zero, imp_false, not_not] at hpress
          obtain ⟨ht, hc, hk⟩ := hpress
          exact ⟨c', ht, peer, e', hev', hc, hk⟩
        exact hl (hf.sent_unique hsent hsent').2
      · simp at hpress
      · exact hpress rfl
    · exact hran rfl
  · next c k f name ok e =>
    split at hran
    · next he =>
      subst he
      have hacc : Accepted s.log f c.uid k :=
        ⟨c, rfl, Traced.acceptedBy_of_userFriendAdded (hf.origin.log _ hev)⟩
      unfold pressSource at hpress
      split at hpress
      · simp at hpress
      · next c' peer e' =>
        have hacc' : Accepted s.log peer.uid f k := by
          simp only [reduceCtorEq, Loc.userFriends.injEq, false_or, ite_eq_right_iff,
            one_ne_zero, imp_false, not_not] at hpress
          obtain ⟨hc, hk⟩ := hpress
          exact ⟨c', hc, peer, e', hev', rfl, hk⟩
        obtain ⟨-, rfl⟩ := hf.accepted_unique hacc hacc'
        exact hl _ _ hacc rfl
      · exact hpress rfl
    · exact hran rfl
  · exact hran rfl

section Once

variable {ok : FState → FLabel → Prop} (hs : Start s₀) (hok : ∀ s l, ok s l → Proceeds s l)
  (h : Reaches (step (program email)) ok s₀ s) {l : Loc} (hl : TwoSided s.log l)
include hs hok h hl

/-- A location is written by one command. -/
theorem source_le_one : weigh (fun ev => pressSource l ev + ranSource l ev) s.log ≤ 1 := by
  have hf := facts_of_reaches hs hok h
  by_cases hran : ∃ ev ∈ s.log, ranSource l ev ≠ 0
  · obtain ⟨ev, hev, hne⟩ := hran
    have hchain := chain_le_one hs (fun s c hd => hok _ _ hd) h l.key
    refine (weigh_le_weigh fun ev' hev' => ?_).trans hchain
    rw [pressSource_eq_zero hf hl hev hne hev', Nat.zero_add]
    exact ranSource_le l ev'
  · push Not at hran
    refine (weigh_le_weigh fun ev' hev' => ?_).trans (pressSource_le_one hf.keys l)
    rw [hran ev' hev', Nat.add_zero]

/-- A location waits to be written, or its write was answered, once. -/
theorem waiting_or_resolved_once :
    weigh (locWeight l).write s.writes + weigh (locWeight l).event s.log ≤ 1 := by
  have htotal := total_of_reaches hs.initial (fun s c hd => hok _ _ hd)
    (fun t _ => locWeight_balanced l) h
  have hann : (locWeight l).announced s = 0 := weigh_eq_zero fun o _ => weigh_eq_zero fun _ _ => rfl
  have hone : (locWeight l).total s ≤ 1 := by
    rw [htotal, hann]
    exact source_le_one hs hok h hl
  unfold Weight.total at hone
  omega

/-- What was answered does not wait. -/
theorem not_waiting_of_resolved {c : Client} {v : Val l} {b : Bool}
    (hr : .resolved c (.update l v) b ∈ s.log) {w : Write Loc Client Cb} (hw : w ∈ s.writes)
    (v' : Val l) : w.op ≠ .update l v' := by
  intro hop
  have honce := waiting_or_resolved_once hs hok h hl
  have hwrite := le_weigh (f := (locWeight l).write) hw
  have hevent := le_weigh (f := (locWeight l).event) hr
  rw [locWeight_write hop] at hwrite
  rw [locWeight_resolved] at hevent
  omega

/-- What was answered was answered once. -/
theorem resolved_once {c c' : Client} {v v' : Val l} {b b' : Bool}
    (hr : .resolved c (.update l v) b ∈ s.log) (hr' : .resolved c' (.update l v') b' ∈ s.log) :
    b = b' := by
  by_contra hne
  have honce := waiting_or_resolved_once hs hok h hl
  have htwo := add_le_weigh (f := (locWeight l).event) hr hr' (by simp [hne])
  rw [locWeight_resolved, locWeight_resolved] at htwo
  omega

end Once

end FLChat.Friends
