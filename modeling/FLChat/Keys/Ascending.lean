import FLChat.Keys.NextPushId

/-!
# One call after the other

The ids of a process are in the order of its calls, in the order of the database, exactly when the
clock does not go back between them (`ascending_iff`): the digits of a new millisecond are random,
and those of the same one are counted up.
-/

namespace FLChat.Keys

/-- The ids of one call after the other. -/
def getAll : List Call → Statics → Option (List String)
  | [], _ => some []
  | (now, rand) :: cs, st => (get now rand st).bind fun (id, st) => (getAll cs st).map (id :: ·)

/-- The statics after each of the calls. -/
theorem exists_statics {cs : List Call} {st : Statics} {ids : List String}
    (h : getAll cs st = some ids) :
    ∃ sts : List Statics, ids = sts.map Statics.id ∧
      sts.map Statics.lastPushTime = cs.map Prod.fst ∧
      (st :: sts).IsChain fun st st' =>
        st.lastPushTime ≤ st'.lastPushTime → st.counter.Before st'.counter := by
  induction cs generalizing st ids with
  | nil =>
    cases h
    exact ⟨[], rfl, rfl, .singleton _⟩
  | cons call cs ih =>
    obtain ⟨now, rand⟩ := call
    obtain ⟨⟨id, st'⟩, hget, hrest⟩ := Option.bind_eq_some_iff.1 h
    obtain ⟨ids', hids, rfl⟩ := Option.map_eq_some_iff.1 hrest
    obtain ⟨hid, hnext⟩ := get_eq_some hget
    obtain ⟨sts, rfl, htimes, hchain⟩ := ih hids
    have htime : st'.lastPushTime = now := Counter.next_time hnext
    refine ⟨st' :: sts, by rw [hid]; rfl, by simp [htime, htimes], hchain.cons_cons fun hle => ?_⟩
    exact Counter.before_next hnext (htime ▸ hle)

/-- The ids ascend in the order of the database exactly when the clock does not go back. -/
theorem ascending_iff {cs : List Call} {st : Statics} {ids : List String}
    (h : getAll cs st = some ids) (hrange : ∀ c ∈ cs, c.1 < 64 ^ 8) :
    ids.Pairwise (fun id id' => compareKey (.key id) (.key id') = .lt) ↔
      (cs.map Prod.fst).Pairwise (· ≤ ·) := by
  obtain ⟨sts, rfl, htimes, hchain⟩ := exists_statics h
  have hlt : ∀ st ∈ sts, st.lastPushTime < 64 ^ 8 := by
    intro st hst
    obtain ⟨c, hc, hct⟩ := List.mem_map.1 (htimes ▸ List.mem_map_of_mem hst)
    exact hct ▸ hrange c hc
  rw [← htimes, List.pairwise_map, List.pairwise_map]
  constructor
  · intro hids
    refine hids.imp_of_mem fun {st st'} hst hst' hlt' => ?_
    rcases (compareKey_id (hlt st hst) (hlt st' hst')).1 hlt' with hbefore | ⟨heq, -⟩
    · exact Nat.le_of_lt hbefore
    · exact Nat.le_of_eq heq
  · intro hclock
    have hbefore : sts.Pairwise fun st st' => st.counter.Before st'.counter := by
      have : IsTrans Statics fun st st' => st.counter.Before st'.counter :=
        ⟨fun _ _ _ => Counter.Before.trans⟩
      refine List.isChain_iff_pairwise.1 (List.isChain_iff_getElem.2 fun i hi => ?_)
      refine List.isChain_iff_getElem.1 hchain.tail i hi ?_
      exact List.pairwise_iff_getElem.1 hclock i (i + 1) _ hi (Nat.lt_succ_self i)
    exact hbefore.imp_of_mem fun hst hst' => (compareKey_id (hlt _ hst) (hlt _ hst')).2

/-- Twice in one millisecond, with a carry, and then in the next one. -/
def quickCalls : List Call :=
  let rand := #v[69, 17, 42, 0, 63, 8, 93, 11, 50, 3, 7, 127]
  [(1600000000000, rand), (1600000000000, rand), (1600000000001, rand)]

theorem ascending_iff_quickCalls :
    ["-MH6Qc--4Ge-z7SAm26z", "-MH6Qc--4Ge-z7SAm27-", "-MH6Qc-04Ge-z7SAm26z"].Pairwise
      (fun id id' => compareKey (.key id) (.key id') = .lt) :=
  (ascending_iff (show getAll quickCalls .initial = some _ by decide +kernel) (by decide)).2 (by decide)

end FLChat.Keys
