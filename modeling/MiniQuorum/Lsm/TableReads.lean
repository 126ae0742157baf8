import MiniQuorum.Lsm.TableFormat

/-! Point reads and streamed reads agree with the full scan of a table. -/

namespace MiniQuorum.Lsm

open Codec Program SimFile

variable {source : Nat → Nat → Option Bytes}

variable {entries group : List TableEntry} {entry : IndexEntry} {r : SSTableReader}
  {index : List IndexEntry} {groups : List (List TableEntry)}

theorem decodeRecordsFrom_sorted {fuel : Nat} {previous : Option TableEntry} {data : Bytes} (h : decodeRecordsFrom fuel previous data = .ok entries) :
    (previous.toList ++ entries).Pairwise RecordOrder := by
  induction fuel generalizing previous data entries with
  | zero =>
    cases data with
    | nil =>
      cases h
      cases previous <;> simp
    | cons b data => cases h
  | succ fuel ih =>
    cases data with
    | nil =>
      cases h
      cases previous <;> simp
    | cons b data =>
      rw [decodeRecordsFrom.eq_3 _ _ _ (by simp), bind_eq_ok] at h
      obtain ⟨⟨entry, rest⟩, -, h⟩ := h
      dsimp only at h
      split at h
      · next horder =>
        rw [bind_eq_ok] at h
        obtain ⟨later, hlater, heq⟩ := h
        cases heq
        have hsorted := ih hlater
        cases previous with
        | none => exact hsorted
        | some p =>
          have hp : validSSTableRecordOrder p.key p.seq entry.key entry.seq :=
            of_decide_eq_true horder
          refine List.pairwise_cons.2 ⟨?_, hsorted⟩
          intro e he
          rcases List.mem_cons.1 he with rfl | he
          · exact hp
          · exact RecordOrder.trans hp ((List.pairwise_cons.1 hsorted).1 e he)
      · cases h

def Block (source : Nat → Nat → Option Bytes) (entry : IndexEntry) (group : List TableEntry) :
    Prop :=
  (readRecords entry).eval source .eof = .ok group

theorem Block.inv (h : Block source entry group) :
    group.Pairwise RecordOrder ∧ ∃ e ∈ group.head?, e.key = entry.firstKey := by
  simp only [Block, readRecords, Reading.eval_bind_eq_ok, Reading.eval_ofExcept,
    Reading.eval_failIf_eq_ok, not_not] at h
  obtain ⟨data, -, entries, hentries, -, hfirst, h⟩ := h
  cases h
  exact ⟨decodeRecordsFrom_sorted hentries, Option.map_eq_some_iff.1 hfirst⟩

theorem Block.mem_key_le (h : Block source entry group) {e : TableEntry} (he : e ∈ group) : entry.firstKey ≤ e.key := by
  obtain ⟨hsorted, first, hfirst, hkey⟩ := h.inv
  rw [← hkey]
  cases group with
  | nil => cases he
  | cons d group =>
    cases hfirst
    rcases List.mem_cons.1 he with rfl | he
    · exact le_rfl
    · exact ((List.pairwise_cons.1 hsorted).1 e he).key_le

theorem Block.key_le_last (h : Block source entry group) {e last : TableEntry} (he : e ∈ group)
    (hlast : last ∈ group.getLast?) : e.key ≤ last.key := by
  obtain ⟨hsorted, -⟩ := h.inv
  obtain ⟨init, rfl⟩ := List.getLast?_eq_some_iff.1 hlast
  rcases List.mem_append.1 he with he | he
  · exact ((List.pairwise_append.1 hsorted).2.2 e he last (by simp)).key_le
  · rw [List.mem_singleton.1 he]

theorem blockEntries_groups {last : Option Bytes} (h : (r.blockEntries last index).eval source .eof = .ok entries) :
    (∀ key ∈ last, ∀ e ∈ entries, key < e.key) ∧ (∀ e ∈ entries, r.bloom.mayContain e.key = true) ∧
      ∃ groups, groups.flatten = entries ∧ groups.Pairwise KeysBefore ∧
        List.Forall₂ (Block source) index groups := by
  induction index generalizing last entries with
  | nil =>
    cases h
    exact ⟨by simp, by simp, [], rfl, List.Pairwise.nil, .nil⟩
  | cons entry index ih =>
    simp only [SSTableReader.blockEntries, Reading.eval_bind_eq_ok,
      Reading.eval_failIf_eq_ok] at h
    obtain ⟨group, hgroup, -, hlast, -, hmay, later, hlater, h⟩ := h
    cases h
    obtain ⟨hafter, hbloom, groups, hflat, hgroups, hblocks⟩ := ih hlater
    have hblock : Block source entry group := hgroup
    obtain ⟨first, hfirst, -⟩ := hblock.inv.2
    obtain ⟨final, hfinal⟩ : ∃ final, final ∈ group.getLast? :=
      Option.ne_none_iff_exists'.1 (by cases group <;> simp_all)
    have hnext : ∀ e ∈ later, final.key < e.key := hafter _ (by rw [hfinal]; rfl)
    have hcross : KeysBefore group later := by
      intro a ha b hb
      exact (hblock.key_le_last ha hfinal).trans_lt (hnext b hb)
    refine ⟨?_, ?_, group :: groups, by rw [List.flatten_cons, hflat], ?_, .cons hblock hblocks⟩
    · intro key hkey e he
      cases hkey
      have hstart : key < entry.firstKey := by simpa using hlast
      rcases List.mem_append.1 he with he | he
      · exact hstart.trans_le (hblock.mem_key_le he)
      · have hle := hblock.mem_key_le (List.mem_of_getLast? hfinal)
        exact (hstart.trans_le hle).trans (hnext e he)
    · intro e he
      rcases List.mem_append.1 he with he | he
      · simp only [List.any_eq_true, not_exists, not_and, Bool.not_eq_true'] at hmay
        exact Bool.not_eq_false _ ▸ hmay e he
      · exact hbloom e he
    · refine List.pairwise_cons.2 ⟨?_, hgroups⟩
      intro g hg a ha b hb
      refine hcross a ha b ?_
      rw [← hflat]
      exact List.mem_flatten.2 ⟨g, hg, hb⟩

/-! ### Point reads -/

theorem searchFrom_spec {f : Nat → Bool} {fuel i j : Nat} (hfuel : j - i ≤ fuel) (hij : i ≤ j)
    (hmono : ∀ a b, i ≤ a → a ≤ b → b < j → f a = true → f b = true) :
    i ≤ searchFrom f fuel i j ∧ searchFrom f fuel i j ≤ j ∧
      (∀ a, i ≤ a → a < searchFrom f fuel i j → f a = false) ∧
      ∀ a, searchFrom f fuel i j ≤ a → a < j → f a = true := by
  induction fuel generalizing i j with
  | zero =>
    have heq : i = j := by omega
    subst heq
    refine ⟨le_rfl, le_rfl, ?_, ?_⟩
    · intro a hia hai
      rw [searchFrom] at hai
      omega
    · intro a hia hai
      rw [searchFrom] at hia
      omega
  | succ fuel ih =>
    rw [searchFrom]
    by_cases hlt : i < j
    · rw [if_pos hlt]
      by_cases hmid : f ((i + j) / 2) = true
      · rw [if_pos hmid]
        obtain ⟨hlow, hhigh, hfalse, htrue⟩ := ih (i := i) (j := (i + j) / 2) (by omega) (by omega)
          fun a b hia hab hb => hmono a b hia hab (by omega)
        refine ⟨hlow, by omega, hfalse, ?_⟩
        intro a ha haj
        by_cases hahalf : a < (i + j) / 2
        · exact htrue a ha hahalf
        · exact hmono ((i + j) / 2) a (by omega) (by omega) haj hmid
      · rw [if_neg hmid]
        obtain ⟨hlow, hhigh, hfalse, htrue⟩ := ih (i := (i + j) / 2 + 1) (j := j) (by omega)
          (by omega) fun a b hia hab hb => hmono a b (by omega) hab hb
        refine ⟨by omega, hhigh, ?_, htrue⟩
        intro a hia ha
        by_cases hahalf : a ≤ (i + j) / 2
        · by_contra hfa
          exact hmid (hmono a _ hia hahalf (by omega) (by simpa using hfa))
        · exact hfalse a (by omega) ha
    · rw [if_neg hlt]
      refine ⟨le_rfl, hij, ?_, ?_⟩ <;> intro a _ _ <;> omega

theorem find?_takeWhile_eq (hsorted : group.Pairwise RecordOrder)
    (key : Bytes) :
    (group.takeWhile fun e => ¬key < e.key).find? (fun e => e.key = key) =
      group.find? fun e => e.key = key := by
  induction group with
  | nil => rfl
  | cons e group ih =>
    obtain ⟨hfirst, hrest⟩ := List.pairwise_cons.1 hsorted
    by_cases hlt : key < e.key
    · have hnone : (e :: group).find? (fun e => e.key = key) = none := by
        rw [List.find?_eq_none]
        intro d hd heq
        have hkey : d.key = key := of_decide_eq_true heq
        rcases List.mem_cons.1 hd with rfl | hd
        · exact hlt.ne' hkey
        · exact (hlt.trans_le (hfirst d hd).key_le).ne' hkey
      rw [hnone, List.takeWhile_cons_of_neg (by simpa using hlt)]
      rfl
    · rw [List.takeWhile_cons_of_pos (by simpa using hlt), List.find?_cons, List.find?_cons,
        ih hrest]

theorem find?_flatten_eq_none {key : Bytes}
    (h : ∀ g ∈ groups, ∀ e ∈ g, e.key ≠ key) :
    groups.flatten.find? (fun e => e.key = key) = none := by
  rw [List.find?_eq_none]
  intro e he heq
  obtain ⟨g, hg, heg⟩ := List.mem_flatten.1 he
  exact h g hg e heg (of_decide_eq_true heq)

theorem find?_flatten_groups {before after : List IndexEntry} {key : Bytes}
    (hblocks : List.Forall₂ (Block source) (before ++ entry :: after) groups)
    (hgroups : groups.Pairwise KeysBefore) (hentry : entry.firstKey ≤ key)
    (hafter : ∀ later ∈ after, key < later.firstKey) :
    ∃ group, Block source entry group ∧
      groups.flatten.find? (fun e => e.key = key) = group.find? fun e => e.key = key := by
  have hrest := List.forall₂_drop_append _ _ _ hblocks.flip
  rw [← List.take_append_drop before.length groups] at hgroups ⊢
  generalize groups.take before.length = gbefore at hgroups ⊢
  generalize groups.drop before.length = gafter at hrest hgroups ⊢
  cases hrest with
  | @cons group _ gafter _ hblock hrest =>
    refine ⟨group, hblock, ?_⟩
    have hpre : gbefore.flatten.find? (fun e => e.key = key) = none := by
      refine find?_flatten_eq_none fun g hg e he heq => ?_
      obtain ⟨first, hfirst, hkey⟩ := (Block.inv hblock).2
      have hlt := (List.pairwise_append.1 hgroups).2.2 g hg group List.mem_cons_self e he first
        (List.mem_of_mem_head? hfirst)
      rw [hkey, heq] at hlt
      exact (hlt.trans_le hentry).false
    have hpost : gafter.flatten.find? (fun e => e.key = key) = none := by
      refine find?_flatten_eq_none fun g hg e he heq => ?_
      obtain ⟨later, hlater, hblock'⟩ := exists_of_forall₂ hrest hg
      have hle := Block.mem_key_le hblock' he
      rw [heq] at hle
      exact ((hafter later hlater).trans_le hle).false
    rw [List.flatten_append, List.flatten_cons, List.find?_append, List.find?_append, hpre, hpost]
    simp

theorem sorted_firstKeys (hblocks : List.Forall₂ (Block source) index groups) (hgroups : groups.Pairwise KeysBefore) :
    index.Pairwise fun a b => a.firstKey < b.firstKey := by
  refine pairwise_of_forall₂ ?_ hblocks hgroups
  intro a g b h hag hbh hbefore
  obtain ⟨first, hfirst, hkey⟩ := hag.inv.2
  obtain ⟨first', hfirst', hkey'⟩ := hbh.inv.2
  rw [← hkey, ← hkey']
  exact hbefore first (List.mem_of_mem_head? hfirst) first' (List.mem_of_mem_head? hfirst')

structure Scanned (source : Nat → Nat → Option Bytes) (r : SSTableReader)
    (groups : List (List TableEntry)) : Prop where
  blocks : List.Forall₂ (Block source) r.index groups
  ordered : groups.Pairwise KeysBefore
  mayContain : ∀ e ∈ groups.flatten, r.bloom.mayContain e.key = true
  count : groups.flatten.length = r.entryCount
  bounds : ∀ e ∈ groups.flatten, r.minKey ≤ e.key ∧ e.key ≤ r.maxKey

theorem sorted_flatten (hblocks : List.Forall₂ (Block source) index groups) (hgroups : groups.Pairwise KeysBefore) :
    groups.flatten.Pairwise RecordOrder := by
  rw [List.pairwise_flatten]
  refine ⟨?_, hgroups.imp fun h a ha b hb => .inl (h a ha b hb)⟩
  intro g hg
  obtain ⟨entry, -, hblock⟩ := exists_of_forall₂ hblocks.flip hg
  exact (Block.inv hblock).1

theorem key_bounds (hsorted : entries.Pairwise RecordOrder)
    {minKey maxKey : Bytes} (hmin : entries.head?.map TableEntry.key = some minKey)
    (hmax : entries.getLast?.map TableEntry.key = some maxKey) {e : TableEntry} (he : e ∈ entries) :
    minKey ≤ e.key ∧ e.key ≤ maxKey := by
  obtain ⟨first, hfirst, rfl⟩ := Option.map_eq_some_iff.1 hmin
  obtain ⟨last, hlast, rfl⟩ := Option.map_eq_some_iff.1 hmax
  refine ⟨?_, ?_⟩
  · cases entries with
    | nil => cases he
    | cons d entries =>
      cases hfirst
      rcases List.mem_cons.1 he with rfl | he
      · exact le_rfl
      · exact ((List.pairwise_cons.1 hsorted).1 e he).key_le
  · obtain ⟨init, rfl⟩ := List.getLast?_eq_some_iff.1 hlast
    rcases List.mem_append.1 he with he | he
    · exact ((List.pairwise_append.1 hsorted).2.2 e he last (by simp)).key_le
    · rw [List.mem_singleton.1 he]

theorem allEntries_scanned (h : r.allEntries.eval source .eof = .ok entries) :
    ∃ groups, groups.flatten = entries ∧ Scanned source r groups := by
  simp only [SSTableReader.allEntries, Reading.eval_bind_eq_ok, Reading.eval_failIf_eq_ok,
    not_not] at h
  obtain ⟨all, hall, -, hcount, -, hbounds, h⟩ := h
  cases h
  obtain ⟨-, hbloom, groups, rfl, hordered, hblocks⟩ := blockEntries_groups hall
  refine ⟨groups, rfl, hblocks, hordered, hbloom, hcount, ?_⟩
  intro e he
  have hne : groups.flatten ≠ [] := List.ne_nil_of_mem he
  simp only [not_and, not_or, not_not] at hbounds
  obtain ⟨hmin, hmax⟩ := hbounds hne
  exact key_bounds (sorted_flatten hblocks hordered) hmin hmax he

theorem Scanned.get (h : Scanned source r groups) (key : Bytes) (checkBloom : Bool) :
    (r.get key checkBloom).eval source .eof =
      .ok (groups.flatten.find? fun e => e.key = key) := by
  rw [SSTableReader.get]
  split
  · next hskip =>
    have hnone : groups.flatten.find? (fun e => e.key = key) = none := by
      rw [List.find?_eq_none]
      intro e he heq
      have hkey : e.key = key := of_decide_eq_true heq
      rcases hskip with hempty | ⟨-, hbloom⟩ | hmin | hmax
      · rw [← h.count] at hempty
        rw [List.eq_nil_of_length_eq_zero hempty] at he
        cases he
      · rw [← hkey, h.mayContain e he] at hbloom
        cases hbloom
      · rw [← hkey] at hmin
        exact ((h.bounds e he).1.trans_lt hmin).false
      · rw [← hkey] at hmax
        exact ((h.bounds e he).2.trans_lt hmax).false
    rw [hnone]
    rfl
  · have hsorted := sorted_firstKeys h.blocks h.ordered
    obtain ⟨-, hle, hfalse, htrue⟩ := searchFrom_spec
      (f := fun i => (r.index[i]?).any fun entry => key < entry.firstKey) (i := 0)
      (j := r.index.length) le_rfl (Nat.zero_le _) (by
        intro a b _ hab hb ha
        rw [List.getElem?_eq_getElem (by omega)] at ha ⊢
        simp only [Option.any_some, decide_eq_true_eq] at ha ⊢
        rcases hab.eq_or_lt with rfl | hlt
        · exact ha
        · exact ha.trans (List.pairwise_iff_getElem.1 hsorted a b _ hb hlt))
    change search r.index.length _ ≤ r.index.length at hle
    dsimp only
    rw [search] at hle ⊢
    generalize searchFrom _ r.index.length 0 r.index.length = i at hle hfalse htrue ⊢
    cases i with
    | zero =>
      have hnone : groups.flatten.find? (fun e => e.key = key) = none := by
        refine find?_flatten_eq_none fun g hg e he heq => ?_
        obtain ⟨entry, hentry, hblock⟩ := exists_of_forall₂ h.blocks.flip hg
        obtain ⟨k, hk, hget⟩ := List.mem_iff_getElem.1 hentry
        have hlt := htrue k (Nat.zero_le _) hk
        rw [List.getElem?_eq_getElem hk, hget, Option.any_some, decide_eq_true_eq, ← heq] at hlt
        exact (hlt.trans_le (Block.mem_key_le hblock he)).false
      rw [hnone]
      rfl
    | succ k =>
      have hk : k < r.index.length := hle
      have hentry : r.index[k].firstKey ≤ key := by
        have := hfalse k (Nat.zero_le _) (Nat.lt_succ_self k)
        rw [List.getElem?_eq_getElem hk, Option.any_some, decide_eq_false_iff_not] at this
        exact not_lt.1 this
      have hafter : ∀ later ∈ r.index.drop (k + 1), key < later.firstKey := by
        intro later hlater
        obtain ⟨n, hn, rfl⟩ := List.mem_iff_getElem.1 hlater
        rw [List.length_drop] at hn
        have := htrue (k + 1 + n) (by omega) (by omega)
        rw [List.getElem?_eq_getElem (by omega), Option.any_some, decide_eq_true_eq] at this
        rwa [List.getElem_drop]
      have hsplit : r.index = r.index.take k ++ r.index[k] :: r.index.drop (k + 1) := by
        rw [← List.drop_eq_getElem_cons hk, List.take_append_drop]
      have hblocks := h.blocks
      rw [hsplit] at hblocks
      obtain ⟨group, hblock, hfind⟩ := find?_flatten_groups hblocks h.ordered hentry hafter
      rw [if_neg (Nat.succ_ne_zero k), Nat.add_sub_cancel, List.getElem?_eq_getElem hk, hfind]
      dsimp only
      rw [Reading.eval_bind_of_ok hblock, find?_takeWhile_eq (Block.inv hblock).1]
      rfl

end MiniQuorum.Lsm
