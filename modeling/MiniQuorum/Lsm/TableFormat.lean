import MiniQuorum.Lsm.FSRules
import MiniQuorum.Lsm.SSTable

/-! A table is read back as it was written. -/

namespace MiniQuorum.Lsm

open Codec Program SimFile

section Lists

variable {α β γ : Type}

variable {R : α → β → Prop}

theorem forall₂_compose {S : α → γ → Prop} {T : β → γ → Prop}
    (h : ∀ a b c, R a b → S a c → T b c) {as : List α} {bs : List β} {cs : List γ}
    (hR : List.Forall₂ R as bs) (hS : List.Forall₂ S as cs) : List.Forall₂ T bs cs := by
  induction hR generalizing cs with
  | nil =>
    cases hS
    exact .nil
  | cons hab _ ih =>
    cases hS with
    | cons hac hS => exact .cons (h _ _ _ hab hac) (ih hS)

theorem exists_of_forall₂ {as : List α} {bs : List β}
    (h : List.Forall₂ R as bs) {a : α} (ha : a ∈ as) : ∃ b ∈ bs, R a b := by
  induction h with
  | nil => cases ha
  | @cons a' b as bs hab _ ih =>
    rcases List.mem_cons.1 ha with rfl | ha
    · exact ⟨b, by simp, hab⟩
    · obtain ⟨b', hb', hR⟩ := ih ha
      exact ⟨b', by simp [hb'], hR⟩

theorem pairwise_of_forall₂ {P : β → β → Prop} {Q : α → α → Prop}
    (h : ∀ a b a' b', R a b → R a' b' → P b b' → Q a a') {as : List α} {bs : List β}
    (hR : List.Forall₂ R as bs) (hP : bs.Pairwise P) : as.Pairwise Q := by
  induction hR with
  | nil => exact List.Pairwise.nil
  | cons hab hrest ih =>
    obtain ⟨hhead, htail⟩ := List.pairwise_cons.1 hP
    refine List.pairwise_cons.2 ⟨?_, ih htail⟩
    intro a' ha'
    obtain ⟨b', hb', hab'⟩ := exists_of_forall₂ hrest ha'
    exact h _ _ _ _ hab hab' (hhead b' hb')

end Lists

def RecordOrder (a b : TableEntry) : Prop := validSSTableRecordOrder a.key a.seq b.key b.seq

instance (a b : TableEntry) : Decidable (RecordOrder a b) :=
  inferInstanceAs (Decidable (validSSTableRecordOrder _ _ _ _))

structure Storable (e : TableEntry) : Prop where
  seq : e.seq < 2 ^ 64
  tombstone : e.tombstone = true → e.value = []

theorem RecordOrder.trans {a b c : TableEntry} (hab : RecordOrder a b) (hbc : RecordOrder b c) :
    RecordOrder a c := by
  rcases hab with hab | ⟨hkab, hsab⟩
  · rcases hbc with hbc | ⟨hkbc, -⟩
    · exact .inl (hab.trans hbc)
    · rw [hkbc.symm] at hab
      exact .inl hab
  · rcases hbc with hbc | ⟨hkbc, hsbc⟩
    · rw [hkab] at hbc
      exact .inl hbc
    · exact .inr ⟨hkbc.trans hkab, hsbc.trans hsab⟩

theorem RecordOrder.key_le {a b : TableEntry} (h : RecordOrder a b) : a.key ≤ b.key := by
  rcases h with h | ⟨h, -⟩
  · exact h.le
  · exact h.ge

/-! ### Records -/

variable {e : TableEntry} {entries : List TableEntry} {data bytes : Bytes}
  {blocks : List BuiltBlock} {index : List IndexEntry} {n : Nat}

theorem encodeRecord_eq_ok (he : Storable e) {bytes : Bytes}
    (h : encodeRecord e = .ok bytes) :
    e.key.length ≤ maxUint32 ∧ e.value.length ≤ maxUint32 ∧
      bytes = putUvarint e.key.length ++ (e.key ++ (littleEndian 8 e.seq ++
        ((if e.tombstone then 1 else 0) :: (putUvarint e.value.length ++ e.value)))) := by
  rw [encodeRecord] at h
  split at h
  · cases h
  · next hfits =>
    rw [not_or, not_lt, not_lt] at hfits
    refine ⟨hfits.1, hfits.2, ?_⟩
    cases htomb : e.tombstone with
    | true =>
      rw [htomb, if_pos rfl] at h
      rw [← Except.ok.inj h, he.tombstone htomb]
      simp
    | false =>
      rw [htomb, if_neg (by decide)] at h
      rw [← Except.ok.inj h]
      simp

theorem decodeRecord_encodeRecord (he : Storable e) {bytes : Bytes}
    (h : encodeRecord e = .ok bytes) (rest : Bytes) :
    decodeRecord (bytes ++ rest) = .ok (e, rest) := by
  obtain ⟨hkey, hvalue, rfl⟩ := encodeRecord_eq_ok he h
  simp only [maxUint32] at hkey hvalue
  have hmarker : ∀ b : Bool, ¬(if b then (1 : UInt8) else 0) > 1 := by decide
  have hflag : ∀ b : Bool, decide ((if b then (1 : UInt8) else 0) = 1) = b := by decide
  simp only [List.append_assoc, List.cons_append, decodeRecord]
  rw [uvarint_putUvarint (by omega)]
  dsimp only
  rw [if_neg (by simp; omega), List.take_left, List.drop_left]
  rw [List.take_left' (length_littleEndian 8 e.seq), ofLittleEndian_littleEndian,
    Nat.mod_eq_of_lt (by simpa using he.seq)]
  have hget : (littleEndian 8 e.seq ++ (if e.tombstone then (1 : UInt8) else 0) ::
      (putUvarint e.value.length ++ (e.value ++ rest))).getD 8 0 =
        if e.tombstone then 1 else 0 := by
    rw [List.getD_eq_getElem?_getD, List.getElem?_append_right (by simp)]
    simp
  have hdrop : (littleEndian 8 e.seq ++ (if e.tombstone then (1 : UInt8) else 0) ::
      (putUvarint e.value.length ++ (e.value ++ rest))).drop 9 =
        putUvarint e.value.length ++ (e.value ++ rest) := by
    rw [List.append_cons]
    exact List.drop_left' (by simp)
  rw [hget, hdrop, if_neg (hmarker _), uvarint_putUvarint (by omega)]
  dsimp only
  rw [if_neg (by simp), if_neg, List.take_left, List.drop_left, hflag]
  rintro ⟨htomb, hne⟩
  have : e.tombstone = true := by
    by_contra hfalse
    simp [Bool.eq_false_iff.2 hfalse] at htomb
  exact hne (by rw [he.tombstone this]; rfl)

inductive Encodes : List TableEntry → Bytes → Prop
  | nil : Encodes [] []
  | cons {e : TableEntry} {record : Bytes} {entries : List TableEntry} {data : Bytes}
      (he : encodeRecord e = .ok record) (h : Encodes entries data) :
      Encodes (e :: entries) (record ++ data)

theorem Encodes.concat (h : Encodes entries data)
    {e : TableEntry} {record : Bytes} (he : encodeRecord e = .ok record) :
    Encodes (entries ++ [e]) (data ++ record) := by
  induction h with
  | nil =>
    have hone := Encodes.cons he .nil
    rwa [List.append_nil] at hone
  | cons hf _ ih =>
    rw [List.append_assoc]
    exact .cons hf ih

theorem encodeRecord_ne_nil (he : Storable e) {record : Bytes}
    (h : encodeRecord e = .ok record) : record ≠ [] := by
  obtain ⟨-, -, rfl⟩ := encodeRecord_eq_ok he h
  simp

theorem decodeRecordsFrom_encodes (h : Encodes entries data) (hstore : ∀ e ∈ entries, Storable e)
    (hsorted : entries.Pairwise RecordOrder) (previous : Option TableEntry)
    (hprevious : ∀ p ∈ previous, ∀ e ∈ entries, RecordOrder p e) {fuel : Nat}
    (hfuel : data.length ≤ fuel) : decodeRecordsFrom fuel previous data = .ok entries := by
  induction h generalizing previous fuel with
  | nil => cases fuel <;> rfl
  | @cons e record entries data he _ ih =>
    have hne := encodeRecord_ne_nil (hstore e (by simp)) he
    have hpos : 0 < record.length := List.length_pos_iff.2 hne
    rw [List.length_append] at hfuel
    obtain ⟨fuel, rfl⟩ : ∃ k, fuel = k + 1 := ⟨fuel - 1, by omega⟩
    have horder : (previous.all fun p =>
        decide (validSSTableRecordOrder p.key p.seq e.key e.seq)) = true := by
      cases previous with
      | none => rfl
      | some p => exact decide_eq_true (hprevious p rfl e (by simp))
    obtain ⟨hhead, htail⟩ := List.pairwise_cons.1 hsorted
    have hrest : decodeRecordsFrom fuel (some e) data = .ok entries :=
      ih (fun d hd => hstore d (by simp [hd])) htail (some e)
        (fun p hp d hd => by cases hp; exact hhead d hd) (by omega)
    rw [decodeRecordsFrom.eq_3 previous _ fuel (List.append_ne_nil_of_left_ne_nil hne data)]
    simp only [decodeRecord_encodeRecord (hstore e (by simp)) he, bind, Except.bind, horder, hrest]
    rfl

theorem decodeRecords_encodes (h : Encodes entries data) (hstore : ∀ e ∈ entries, Storable e)
    (hsorted : entries.Pairwise RecordOrder) : decodeRecords data = .ok entries :=
  decodeRecordsFrom_encodes h hstore hsorted none (by simp) le_rfl

/-! ### Data blocks -/

structure BlockOf (block : BuiltBlock) (group : List TableEntry) : Prop where
  first : group.head?.map TableEntry.key = some block.firstKey
  data : Encodes group block.data

def KeysBefore (g h : List TableEntry) : Prop := ∀ a ∈ g, ∀ b ∈ h, a.key < b.key

theorem buildBlocksFrom_groups {rest : List TableEntry} {firstKey : Bytes}
    {group : List TableEntry} {previous : TableEntry}
    (hblock : BlockOf ⟨firstKey, data⟩ (group ++ [previous]))
    (hsorted : (group ++ [previous] ++ rest).Pairwise RecordOrder)
    (h : buildBlocksFrom firstKey data previous rest = .ok blocks) :
    ∃ groups, groups.flatten = group ++ [previous] ++ rest ∧
      List.Forall₂ BlockOf blocks groups ∧ groups.Pairwise KeysBefore := by
  induction rest generalizing firstKey data group previous blocks with
  | nil =>
    rw [buildBlocksFrom] at h
    cases h
    exact ⟨[group ++ [previous]], by simp, .cons hblock .nil, List.pairwise_singleton _ _⟩
  | cons entry rest ih =>
    rw [buildBlocksFrom] at h
    cases hrecord : encodeRecord entry with
    | error err =>
      rw [hrecord] at h
      cases h
    | ok record =>
      simp only [hrecord, bind, Except.bind] at h
      have hassoc : group ++ [previous] ++ entry :: rest =
          group ++ [previous] ++ [entry] ++ rest := by simp
      split at h
      · next hsplit =>
        cases hmore : buildBlocksFrom entry.key record entry rest with
        | error err =>
          rw [hmore] at h
          cases h
        | ok more =>
          rw [hmore] at h
          cases h
          obtain ⟨hfirst, hlater, hcross⟩ := List.pairwise_append.1 hsorted
          have hone : BlockOf ⟨entry.key, record⟩ ([] ++ [entry]) := by
            refine ⟨rfl, ?_⟩
            have henc := Encodes.cons hrecord .nil
            rwa [List.append_nil] at henc
          obtain ⟨groups, hflat, hblocks, hgroups⟩ := ih hone hlater hmore
          refine ⟨(group ++ [previous]) :: groups, ?_, .cons hblock hblocks, ?_⟩
          · rw [List.flatten_cons, hflat]
            rfl
          · refine List.pairwise_cons.2 ⟨?_, hgroups⟩
            intro later hlaterMem a ha b hb
            have hb : b ∈ entry :: rest := by
              rw [← List.singleton_append, ← List.nil_append [entry], ← hflat]
              exact List.mem_flatten.2 ⟨later, hlaterMem, hb⟩
            have hmid : previous.key < entry.key := by
              rcases hcross previous (by simp) entry (by simp) with hlt | ⟨heq, -⟩
              · exact hlt
              · exact absurd heq hsplit.2
            have hle : a.key ≤ previous.key := by
              rcases List.mem_append.1 ha with ha | ha
              · exact ((List.pairwise_append.1 hfirst).2.2 a ha previous (by simp)).key_le
              · rw [List.mem_singleton.1 ha]
            have hge : entry.key ≤ b.key := by
              rcases List.mem_cons.1 hb with rfl | hb
              · exact le_rfl
              · exact ((List.pairwise_cons.1 hlater).1 b hb).key_le
            exact hle.trans_lt (hmid.trans_le hge)
      · rw [hassoc] at hsorted ⊢
        refine ih ⟨?_, hblock.data.concat hrecord⟩ hsorted h
        have hfirst := hblock.first
        cases group <;> simpa using hfirst

theorem buildDataBlocks_groups (hsorted : entries.Pairwise RecordOrder) (h : buildDataBlocks entries = .ok blocks) :
    ∃ groups, groups.flatten = entries ∧ List.Forall₂ BlockOf blocks groups ∧
      groups.Pairwise KeysBefore := by
  cases entries with
  | nil =>
    cases h
    exact ⟨[], rfl, .nil, List.Pairwise.nil⟩
  | cons entry rest =>
    rw [buildDataBlocks] at h
    cases hrecord : encodeRecord entry with
    | error err =>
      rw [hrecord] at h
      cases h
    | ok record =>
      rw [hrecord] at h
      have hone : BlockOf ⟨entry.key, record⟩ ([] ++ [entry]) := by
        refine ⟨rfl, ?_⟩
        have henc := Encodes.cons hrecord .nil
        rwa [List.append_nil] at henc
      exact buildBlocksFrom_groups hone hsorted h

def sealed (payload : Bytes) : Bytes := payload ++ littleEndian 4 (crc32c payload)

theorem length_sealed (payload : Bytes) : (sealed payload).length = payload.length + 4 := by
  simp [sealed]

theorem appendBlock_eq_ok {table payload out : Bytes} (h : appendBlock table payload = .ok out) :
    out = table ++ sealed payload := by
  rw [appendBlock] at h
  split at h
  · cases h
  · rw [← Except.ok.inj h, sealed, List.append_assoc]

theorem slice_append (before piece after : Bytes) :
    slice (before ++ (piece ++ after)) piece.length before.length = some piece := by
  rw [slice, List.drop_left, List.take_left, if_pos rfl]

theorem crc32c_lt (payload : Bytes) : crc32c payload < 2 ^ 32 :=
  (Crc.checksum castagnoli payload).isLt

theorem eval_readBlock {source : Nat → Nat → Option Bytes} {payload : Bytes} {offset length : Nat}
    (hlength : length = payload.length + 4) (hbound : offset + length ≤ maxInt64)
    (hslice : source length offset = some (sealed payload)) :
    (readBlock offset length).eval source .eof = .ok payload := by
  have hsize : (sealed payload).length - 4 = payload.length := by
    rw [length_sealed, Nat.add_sub_cancel]
  rw [readBlock, Reading.eval_failIf_bind (by omega),
    Reading.eval_bind_of_ok (Reading.eval_ask hslice), hsize, sealed, List.take_left,
    List.drop_left, ofLittleEndian_littleEndian,
    Nat.mod_eq_of_lt (by simpa using crc32c_lt payload), Reading.eval_failIf_bind (by simp)]
  rfl

structure Indexed (bytes : Bytes) (block : BuiltBlock) (entry : IndexEntry) : Prop where
  firstKey : entry.firstKey = block.firstKey
  length : entry.length = block.data.length + 4
  bound : entry.offset + entry.length ≤ bytes.length
  slice : slice bytes entry.length entry.offset = some (sealed block.data)

theorem slice_of_isPrefix {whole : Bytes} (h : bytes <+: whole) {length offset : Nat}
    {piece : Bytes} (hslice : slice bytes length offset = some piece)
    (hbound : offset + length ≤ bytes.length) : slice whole length offset = some piece := by
  obtain ⟨after, rfl⟩ := h
  have hdrop : ((bytes ++ after).drop offset).take length = (bytes.drop offset).take length := by
    rw [List.drop_append_of_le_length (by omega), List.take_append_of_le_length (by simp; omega)]
  rw [slice, hdrop]
  exact hslice

theorem Indexed.of_isPrefix {whole : Bytes} (hpre : bytes <+: whole) {block : BuiltBlock}
    {entry : IndexEntry} (h : Indexed bytes block entry) : Indexed whole block entry where
  firstKey := h.firstKey
  length := h.length
  bound := h.bound.trans hpre.length_le
  slice := slice_of_isPrefix hpre h.slice h.bound

theorem appendDataBlocks_indexed {table final : Bytes} (h : appendDataBlocks table blocks = .ok (final, index)) :
    table <+: final ∧ List.Forall₂ (Indexed final) blocks index ∧
      ∀ previous : Option IndexEntry,
        (∀ p ∈ previous, p.offset + p.length ≤ table.length) →
          validBlockBounds final.length previous index = true := by
  induction blocks generalizing table index with
  | nil =>
    cases h
    exact ⟨List.prefix_rfl, .nil, fun _ _ => rfl⟩
  | cons block rest ih =>
    rw [appendDataBlocks] at h
    cases happend : appendBlock table block.data with
    | error err =>
      rw [happend] at h
      cases h
    | ok appended =>
      simp only [happend, bind, Except.bind] at h
      cases hmore : appendDataBlocks appended rest with
      | error err =>
        rw [hmore] at h
        cases h
      | ok r =>
        obtain ⟨last, later⟩ := r
        simp only [hmore, pure, Except.pure, Except.ok.injEq, Prod.mk.injEq] at h
        obtain ⟨rfl, rfl⟩ := h
        obtain rfl := appendBlock_eq_ok happend
        obtain ⟨hpre, hindexed, hbounds⟩ := ih hmore
        have hlen : (table ++ sealed block.data).length - table.length = block.data.length + 4 := by
          rw [List.length_append, length_sealed, Nat.add_sub_cancel_left]
        have hthis : Indexed (table ++ sealed block.data) block
            ⟨block.firstKey, table.length, (table ++ sealed block.data).length - table.length⟩ := by
          refine ⟨rfl, hlen, by simp, ?_⟩
          have hslice := slice_append table (sealed block.data) []
          rw [List.append_nil] at hslice
          simp only [hlen]
          rwa [length_sealed] at hslice
        refine ⟨(List.prefix_append _ _).trans hpre, .cons (hthis.of_isPrefix hpre) hindexed, ?_⟩
        intro previous hprevious
        have hfinal := hpre.length_le
        rw [List.length_append, length_sealed] at hfinal
        simp only [validBlockBounds, Bool.and_eq_true, decide_eq_true_eq, hlen]
        refine ⟨⟨⟨by omega, by omega⟩, ?_⟩, ?_⟩
        · cases previous with
          | none => rfl
          | some p => exact decide_eq_true (hprevious p rfl)
        · refine hbounds _ ?_
          intro p hp
          cases hp
          rw [List.length_append, length_sealed]

/-! ### Index -/

structure IndexEntry.Fits (entry : IndexEntry) : Prop where
  offset : entry.offset < 2 ^ 64
  length : entry.length < 2 ^ 64
  sealed : 4 ≤ entry.length

theorem decodeIndexFrom_encode (h : encodeIndexEntries index = .ok data) (hfits : ∀ entry ∈ index, entry.Fits)
    (hsorted : index.Pairwise fun a b => a.firstKey < b.firstKey) (last : Option IndexEntry)
    (hlast : ∀ p ∈ last, ∀ entry ∈ index, p.firstKey < entry.firstKey) :
    index.length ≤ data.length ∧ decodeIndexFrom index.length last data = .ok index := by
  induction index generalizing data last with
  | nil =>
    cases h
    exact ⟨le_rfl, rfl⟩
  | cons entry rest ih =>
    rw [encodeIndexEntries, encodeIndexEntry] at h
    split at h
    · cases h
    · next hkey =>
      simp only [bind, Except.bind] at h
      cases hmore : encodeIndexEntries rest with
      | error err =>
        rw [hmore] at h
        cases h
      | ok later =>
        simp only [hmore, pure, Except.pure, Except.ok.injEq] at h
        obtain ⟨hhead, htail⟩ := List.pairwise_cons.1 hsorted
        obtain ⟨hcount, hrest⟩ := ih hmore (fun e he => hfits e (by simp [he])) htail (some entry)
          (fun p hp e he => by cases hp; exact hhead e he)
        have hfit := hfits entry (by simp)
        have horder : ¬(entry.length < 4 ∨
            (last.any fun p => decide (¬p.firstKey < entry.firstKey)) = true) := by
          rintro (hshort | hany)
          · have := hfit.sealed
            omega
          · cases last with
            | none => cases hany
            | some p => exact of_decide_eq_true hany (hlast p rfl entry (by simp))
        have hlen : 0 < (putUvarint entry.firstKey.length).length :=
          List.length_pos_iff.2 (putUvarint_ne_nil _)
        simp only [maxUint32] at hkey
        subst h
        refine ⟨by simp; omega, ?_⟩
        simp only [List.length_cons, List.append_assoc]
        rw [decodeIndexFrom, uvarint_putUvarint (by omega)]
        dsimp only
        rw [if_neg (by simp; omega), List.take_left, List.drop_left,
          List.take_left' (length_littleEndian 8 entry.offset), ofLittleEndian_littleEndian,
          Nat.mod_eq_of_lt (by simpa using hfit.offset),
          List.drop_left' (length_littleEndian 8 entry.offset),
          List.take_left' (length_littleEndian 8 entry.length), ofLittleEndian_littleEndian,
          Nat.mod_eq_of_lt (by simpa using hfit.length), if_neg horder]
        have hdrop : (littleEndian 8 entry.offset ++ (littleEndian 8 entry.length ++ later)).drop 16
            = later := by
          rw [← List.append_assoc]
          exact List.drop_left' (by simp)
        rw [hdrop, hrest]
        rfl

theorem decodeIndex_encodeIndex (h : encodeIndex index = .ok data) (hfits : ∀ entry ∈ index, entry.Fits)
    (hsorted : index.Pairwise fun a b => a.firstKey < b.firstKey) (hdata : data.length < 2 ^ 64) :
    decodeIndex data = .ok index := by
  rw [encodeIndex] at h
  cases hentries : encodeIndexEntries index with
  | error err =>
    rw [hentries] at h
    cases h
  | ok entries =>
    simp only [hentries, bind, Except.bind, pure, Except.pure, Except.ok.injEq] at h
    obtain ⟨hle, hdecode⟩ := decodeIndexFrom_encode hentries hfits hsorted none (by simp)
    subst h
    rw [List.length_append] at hdata
    rw [decodeIndex, uvarint_putUvarint (by omega)]
    dsimp only
    rw [if_neg (by simp; omega), hdecode]

/-! ### Footer -/

theorem drop_field {metadata piece after : Bytes} {start : Nat} (width : Nat)
    (h : metadata.drop start = piece ++ after) (hwidth : piece.length = width) :
    (metadata.drop start).take width = piece ∧ metadata.drop (start + width) = after := by
  rw [← List.drop_drop, h]
  exact ⟨List.take_left' hwidth, List.drop_left' hwidth⟩

theorem length_footerMetadata (a b c d n : Nat) (minKey maxKey : Bytes) :
    (footerMetadata a b c d n minKey maxKey).length = 48 + (minKey.length + maxKey.length) := by
  simp [footerMetadata]
  omega

theorem encodeFooter_eq_ok {a b c d : Nat} {minKey maxKey footer : Bytes}
    (h : encodeFooter a b c d n minKey maxKey = .ok footer) :
    minKey.length ≤ maxUint32 ∧ maxKey.length ≤ maxUint32 ∧
      (footerMetadata a b c d n minKey maxKey).length ≤ maxUint32 ∧
      footer = footerMetadata a b c d n minKey maxKey ++
        (littleEndian 4 (crc32c (footerMetadata a b c d n minKey maxKey)) ++
          (littleEndian 4 (footerMetadata a b c d n minKey maxKey).length ++ footerMagic)) := by
  rw [encodeFooter] at h
  split at h
  · cases h
  · next hkeys =>
    rw [not_or, not_lt, not_lt] at hkeys
    dsimp only at h
    split at h
    · cases h
    · next hsize =>
      exact ⟨hkeys.1, hkeys.2, not_lt.1 hsize, (Except.ok.inj h).symm⟩

theorem ofLittleEndian_eight (h : n < 2 ^ 64) : ofLittleEndian (littleEndian 8 n) = n := by
  rw [ofLittleEndian_littleEndian, Nat.mod_eq_of_lt (by simpa using h)]

theorem ofLittleEndian_four (h : n < 2 ^ 32) : ofLittleEndian (littleEndian 4 n) = n := by
  rw [ofLittleEndian_littleEndian, Nat.mod_eq_of_lt (by simpa using h)]

theorem Reading.eval_ask_append {before piece after : Bytes}
    (h : bytes = before ++ (piece ++ after)) {length offset : Nat} (hoffset : before.length = offset)
    (hlength : piece.length = length) (onError : Err → Err) :
    (Reading.ask length offset onError).eval (slice bytes) .eof = .ok piece := by
  subst h hoffset hlength
  exact Reading.eval_ask (slice_append before piece after)

/-- The parts of a table, as `Finish` lays them out. -/
structure Layout (entries : List TableEntry) (bytes : Bytes) where
  blocks : List BuiltBlock
  index : List IndexEntry
  data : Bytes
  indexData : Bytes
  bloom : BloomFilter
  bloomData : Bytes
  minKey : Bytes
  maxKey : Bytes
  metadata : Bytes
  blocks_eq : buildDataBlocks entries = .ok blocks
  data_eq : appendDataBlocks [] blocks = .ok (data, index)
  index_eq : encodeIndex index = .ok indexData
  bloom_eq : ∃ filter, newBloomFilter entries.length = some filter ∧
    bloom = (entries.map TableEntry.key).foldl BloomFilter.add filter
  bloomData_eq : bloom.marshalBinary = .ok bloomData
  minKey_eq : minKey = (entries.head?.map TableEntry.key).getD []
  maxKey_eq : maxKey = (entries.getLast?.map TableEntry.key).getD []
  minKey_le : minKey.length ≤ maxUint32
  maxKey_le : maxKey.length ≤ maxUint32
  metadata_eq : metadata = footerMetadata data.length (indexData.length + 4)
    (data.length + (indexData.length + 4)) (bloomData.length + 4) entries.length minKey maxKey
  metadata_le : metadata.length ≤ maxUint32
  bytes_eq : bytes = data ++ (sealed indexData ++ (sealed bloomData ++ (metadata ++
    (littleEndian 4 (crc32c metadata) ++ (littleEndian 4 metadata.length ++ footerMagic)))))

theorem encodeTable_layout (h : encodeTable entries = .ok bytes) : Nonempty (Layout entries bytes) := by
  simp only [encodeTable, bind_eq_ok] at h
  obtain ⟨blocks, hblocks, ⟨data, index⟩, hdata, indexData, hindex, withIndex, hwithIndex,
    bloomData, hbloom, withBloom, hwithBloom, footer, hfooter, hbytes⟩ := h
  obtain rfl := appendBlock_eq_ok hwithIndex
  obtain rfl := appendBlock_eq_ok hwithBloom
  have hindexLen : (data ++ sealed indexData).length - data.length = indexData.length + 4 := by
    rw [List.length_append, length_sealed, Nat.add_sub_cancel_left]
  have hbloomLen : (data ++ sealed indexData ++ sealed bloomData).length -
      (data ++ sealed indexData).length = bloomData.length + 4 := by
    rw [List.length_append, length_sealed, Nat.add_sub_cancel_left]
  have hbloomAt : (data ++ sealed indexData).length = data.length + (indexData.length + 4) := by
    rw [List.length_append, length_sealed]
  rw [hbloomLen, hindexLen, hbloomAt] at hfooter
  obtain ⟨hmin, hmax, hmeta, rfl⟩ := encodeFooter_eq_ok hfooter
  rw [tableBloom] at hbloom
  split at hbloom
  · cases hbloom
  · next filter hfilter =>
    exact ⟨{
      blocks, index, data, indexData, bloomData
      bloom := _
      minKey := _
      maxKey := _
      metadata := _
      blocks_eq := hblocks
      data_eq := hdata
      index_eq := hindex
      bloom_eq := ⟨filter, hfilter, rfl⟩
      bloomData_eq := hbloom
      minKey_eq := rfl
      maxKey_eq := rfl
      minKey_le := hmin
      maxKey_le := hmax
      metadata_eq := rfl
      metadata_le := hmeta
      bytes_eq := by
        rw [← Except.ok.inj hbytes]
        simp only [List.append_assoc] }⟩

namespace Layout

variable {entries : List TableEntry} {bytes : Bytes} (L : Layout entries bytes)

theorem length_bytes : bytes.length =
    L.data.length + (L.indexData.length + 4 + (L.bloomData.length + 4 + (L.metadata.length + 16))) := by
  refine (congrArg List.length L.bytes_eq).trans ?_
  simp [length_sealed, footerMagic]

include L in
theorem entries_lt : entries.length < 2 ^ 64 := by
  obtain ⟨filter, hfilter, -⟩ := L.bloom_eq
  exact BloomFilter.keys_lt hfilter

theorem sized_bloom : L.bloom.Sized := by
  obtain ⟨filter, hfilter, hbloom⟩ := L.bloom_eq
  rw [hbloom]
  exact (BloomFilter.sized_newBloomFilter hfilter).foldl_add _

theorem bloom_lt : L.bloom.m < 2 ^ 64 := by
  obtain ⟨filter, hfilter, hbloom⟩ := L.bloom_eq
  rw [hbloom, BloomFilter.m_foldl_add]
  exact BloomFilter.m_lt hfilter

theorem trailer_fields {trailer : Bytes}
    (h : trailer = littleEndian 4 (crc32c L.metadata) ++
      (littleEndian 4 L.metadata.length ++ footerMagic)) :
    trailer.drop 8 = footerMagic ∧ ofLittleEndian ((trailer.drop 4).take 4) = L.metadata.length ∧
      ofLittleEndian (trailer.take 4) = crc32c L.metadata := by
  have hmeta := L.metadata_le
  simp only [maxUint32] at hmeta
  subst h
  refine ⟨?_, ?_, ?_⟩
  · rw [← List.append_assoc]
    exact List.drop_left' (by simp)
  · rw [List.drop_left' (by simp), List.take_left' (by simp)]
    exact ofLittleEndian_four (by omega)
  · rw [List.take_left' (by simp)]
    exact ofLittleEndian_four (crc32c_lt _)

structure Holds (bytes : Bytes) (entry : IndexEntry) (group : List TableEntry) : Prop where
  first : group.head?.map TableEntry.key = some entry.firstKey
  fits : entry.Fits
  read : (readRecords entry).eval (slice bytes) .eof = .ok group

theorem forall₂_holds (hstore : ∀ e ∈ entries, Storable e)
    (hsorted : entries.Pairwise RecordOrder) (hsize : bytes.length ≤ maxInt64) :
    ∃ groups, groups.flatten = entries ∧ groups.Pairwise KeysBefore ∧
      List.Forall₂ (Holds bytes) L.index groups := by
  obtain ⟨-, hindexed, -⟩ := appendDataBlocks_indexed L.data_eq
  obtain ⟨groups, hflat, hblocks, hgroups⟩ := buildDataBlocks_groups hsorted L.blocks_eq
  have hpre : L.data <+: bytes := ⟨_, L.bytes_eq.symm⟩
  refine ⟨groups, hflat, hgroups, ?_⟩
  have hpart : ∀ group ∈ groups, (∀ e ∈ group, Storable e) ∧ group.Pairwise RecordOrder := by
    intro group hgroup
    rw [← hflat] at hstore hsorted
    exact ⟨fun e he => hstore e (List.mem_flatten.2 ⟨group, hgroup, he⟩),
      (List.pairwise_flatten.1 hsorted).1 group hgroup⟩
  have hblocks := ((List.forall₂_and_left groups L.blocks).2 ⟨hpart, hblocks.flip⟩).flip
  refine forall₂_compose ?_ hindexed hblocks
  rintro block entry group hentry ⟨⟨hgroup, hordered⟩, hblock⟩
  have hentry := hentry.of_isPrefix hpre
  have hlength := hentry.length
  have hbound := hentry.bound
  have hfirst : group.head?.map TableEntry.key = some entry.firstKey := by
    rw [hentry.firstKey]
    exact hblock.first
  refine ⟨hfirst, ?_, ?_⟩
  · simp only [maxInt64] at hsize
    exact ⟨by omega, by omega, by omega⟩
  · rw [readRecords, Reading.eval_bind_of_ok (eval_readBlock hlength (by omega) hentry.slice),
      Reading.eval_bind, Reading.eval_ofExcept, decodeRecords_encodes hblock.data hgroup hordered]
    dsimp only
    rw [Reading.eval_failIf_bind (not_not.2 hfirst)]
    rfl

theorem decodeMetadata_metadata (hsize : bytes.length ≤ maxInt64) :
    decodeMetadata L.metadata = ⟨L.data.length, L.indexData.length + 4,
      L.data.length + (L.indexData.length + 4), L.bloomData.length + 4, entries.length,
      L.minKey.length, L.maxKey.length, L.minKey ++ L.maxKey⟩ := by
  have hlen := L.length_bytes
  have hmin := L.minKey_le
  have hmax := L.maxKey_le
  have hcount := L.entries_lt
  simp only [maxInt64, maxUint32] at hsize hmin hmax
  have hmeta : L.metadata.drop 0 = _ := L.metadata_eq
  obtain ⟨hindexOffset, hmeta⟩ := drop_field 8 hmeta (by simp)
  obtain ⟨hindexLength, hmeta⟩ := drop_field 8 hmeta (by simp)
  obtain ⟨hbloomOffset, hmeta⟩ := drop_field 8 hmeta (by simp)
  obtain ⟨hbloomLength, hmeta⟩ := drop_field 8 hmeta (by simp)
  obtain ⟨hentries, hmeta⟩ := drop_field 8 hmeta (by simp)
  obtain ⟨hminLen, hmeta⟩ := drop_field 4 hmeta (by simp)
  obtain ⟨hmaxLen, hmeta⟩ := drop_field 4 hmeta (by simp)
  simp only [Nat.reduceAdd] at *
  simp only [decodeMetadata, hindexOffset, hindexLength, hbloomOffset, hbloomLength, hentries,
    hminLen, hmaxLen, hmeta]
  rw [ofLittleEndian_eight (by omega), ofLittleEndian_eight (by omega),
    ofLittleEndian_eight (by omega), ofLittleEndian_eight (by omega),
    ofLittleEndian_eight (by omega), ofLittleEndian_four (by omega),
    ofLittleEndian_four (by omega)]

theorem Holds.exists_key {entry : IndexEntry} {group : List TableEntry}
    (h : Holds bytes entry group) : ∃ e ∈ group, e.key = entry.firstKey := by
  obtain ⟨e, he, hkey⟩ := Option.map_eq_some_iff.1 h.first
  exact ⟨e, List.mem_of_mem_head? he, hkey⟩

theorem sorted_index {index : List IndexEntry} {groups : List (List TableEntry)}
    (hholds : List.Forall₂ (Holds bytes) index groups) (hgroups : groups.Pairwise KeysBefore) :
    index.Pairwise fun a b => a.firstKey < b.firstKey := by
  refine pairwise_of_forall₂ ?_ hholds hgroups
  intro a g a' g' ha ha' hbefore
  obtain ⟨e, he, hkey⟩ := ha.exists_key
  obtain ⟨e', he', hkey'⟩ := ha'.exists_key
  rw [← hkey, ← hkey']
  exact hbefore e he e' he'

theorem index_eq_nil_iff {index : List IndexEntry} {groups : List (List TableEntry)}
    (hholds : List.Forall₂ (Holds bytes) index groups) : index = [] ↔ groups.flatten = [] := by
  cases hholds with
  | nil => simp
  | cons h _ =>
    obtain ⟨e, he, -⟩ := h.exists_key
    simp only [reduceCtorEq, List.flatten_cons, List.append_eq_nil_iff, false_iff, not_and]
    intro hnil
    rw [hnil] at he
    cases he

theorem minKey_le_maxKey (hsorted : entries.Pairwise RecordOrder) : ¬L.maxKey < L.minKey := by
  rw [L.minKey_eq, L.maxKey_eq]
  cases entries with
  | nil => simp
  | cons e rest =>
    rw [List.head?_cons, List.getLast?_cons]
    simp only [Option.map_some, Option.getD_some, not_lt]
    cases hlast : rest.getLast? with
    | none => exact le_rfl
    | some last =>
      exact ((List.pairwise_cons.1 hsorted).1 last (List.mem_of_getLast? hlast)).key_le

theorem eval_openFooter (hstore : ∀ e ∈ entries, Storable e)
    (hsorted : entries.Pairwise RecordOrder) (hsize : bytes.length ≤ maxInt64) :
    (openFooter (bytes.length - footerTrailer - L.metadata.length)
      ⟨L.data.length, L.indexData.length + 4, L.data.length + (L.indexData.length + 4),
        L.bloomData.length + 4, entries.length, L.minKey.length, L.maxKey.length,
        L.minKey ++ L.maxKey⟩).eval (slice bytes) .eof =
      .ok ⟨L.index, L.bloom, entries.length, L.minKey, L.maxKey⟩ := by
  have hlen := L.length_bytes
  have hbits := hsize
  simp only [maxInt64] at hbits
  obtain ⟨groups, hflat, hgroups, hholds⟩ := L.forall₂_holds hstore hsorted hsize
  have hindex : decodeIndex L.indexData = .ok L.index := by
    refine decodeIndex_encodeIndex L.index_eq ?_ (sorted_index hholds hgroups) (by omega)
    intro entry hentry
    obtain ⟨_, -, h⟩ := exists_of_forall₂ hholds hentry
    exact h.fits
  have hempty : entries.length = 0 ↔ L.index.length = 0 := by
    rw [List.length_eq_zero_iff, List.length_eq_zero_iff, index_eq_nil_iff hholds, hflat]
  have hbounds : validBlockBounds L.data.length none L.index = true := by
    obtain ⟨-, -, hbounds⟩ := appendDataBlocks_indexed L.data_eq
    exact hbounds none (by simp)
  have hindexSlice : slice bytes (L.indexData.length + 4) L.data.length =
      some (sealed L.indexData) := by
    rw [← length_sealed]
    exact (congrArg (slice · _ _) L.bytes_eq).trans (slice_append ..)
  have hbloomSlice : slice bytes (L.bloomData.length + 4)
      (L.data.length + (L.indexData.length + 4)) = some (sealed L.bloomData) := by
    have hbytes := L.bytes_eq
    rw [← List.append_assoc] at hbytes
    rw [← length_sealed, ← length_sealed L.indexData, ← List.length_append]
    exact (congrArg (slice · _ _) hbytes).trans (slice_append ..)
  have hbloom : unmarshalBloomFilter L.bloomData = .ok L.bloom :=
    L.sized_bloom.unmarshal_marshal L.bloom_lt L.bloomData_eq
  rw [openFooter, Reading.eval_failIf_bind (by simp),
    Reading.eval_failIf_bind (by simp only [footerTrailer]; omega),
    Reading.eval_bind_of_ok (eval_readBlock rfl (by omega) hindexSlice),
    Reading.eval_bind, Reading.eval_ofExcept, hindex]
  dsimp only
  rw [Reading.eval_failIf_bind (by simp [hempty]), Reading.eval_failIf_bind (by simp [hbounds]),
    Reading.eval_bind_of_ok (eval_readBlock rfl (by omega) hbloomSlice),
    Reading.eval_bind, Reading.eval_ofExcept, hbloom]
  simp only [Except.mapError, List.take_left, List.drop_left]
  rw [Reading.eval_failIf_bind (fun h => L.minKey_le_maxKey hsorted h.2)]
  rfl

theorem eval_open (hstore : ∀ e ∈ entries, Storable e) (hsorted : entries.Pairwise RecordOrder)
    (hsize : bytes.length ≤ maxInt64) :
    (openSSTable bytes.length).eval (slice bytes) .eof =
      .ok ⟨L.index, L.bloom, entries.length, L.minKey, L.maxKey⟩ := by
  have hlen := L.length_bytes
  obtain ⟨hmagic, hmetadataLen, hcrc⟩ := L.trailer_fields rfl
  have hmetaLen : 48 ≤ L.metadata.length := by
    rw [L.metadata_eq, length_footerMetadata]
    omega
  have htrailer : bytes = (L.data ++ (sealed L.indexData ++ (sealed L.bloomData ++ L.metadata))) ++
      ((littleEndian 4 (crc32c L.metadata) ++
        (littleEndian 4 L.metadata.length ++ footerMagic)) ++ []) := by
    refine L.bytes_eq.trans ?_
    simp only [List.append_assoc, List.append_nil]
  have hmetadata : bytes = (L.data ++ (sealed L.indexData ++ sealed L.bloomData)) ++
      (L.metadata ++ (littleEndian 4 (crc32c L.metadata) ++
        (littleEndian 4 L.metadata.length ++ footerMagic))) := by
    refine L.bytes_eq.trans ?_
    simp only [List.append_assoc]
  rw [openSSTable, Reading.eval_failIf_bind (by simp only [footerTrailer]; omega),
    Reading.eval_bind_of_ok (Reading.eval_ask_append htrailer
      (by simp [length_sealed, footerTrailer]; omega) (by simp [footerTrailer, footerMagic]) _),
    Reading.eval_failIf_bind (not_not.2 hmagic)]
  dsimp only
  rw [hmetadataLen, Reading.eval_failIf_bind (by simp only [footerTrailer]; omega),
    Reading.eval_bind_of_ok (Reading.eval_ask_append hmetadata
      (by simp [length_sealed, footerTrailer]; omega) rfl _),
    Reading.eval_failIf_bind (not_not.2 hcrc), L.decodeMetadata_metadata hsize]
  exact L.eval_openFooter hstore hsorted hsize

theorem eval_blockEntries (r : SSTableReader) {index : List IndexEntry}
    {groups : List (List TableEntry)} (hholds : List.Forall₂ (Holds bytes) index groups)
    (hgroups : groups.Pairwise KeysBefore)
    (hbloom : ∀ e ∈ groups.flatten, r.bloom.mayContain e.key = true) (last : Option Bytes)
    (hlast : ∀ key ∈ last, ∀ e ∈ groups.flatten, key < e.key) :
    (r.blockEntries last index).eval (slice bytes) .eof = .ok groups.flatten := by
  induction hholds generalizing last with
  | nil => rfl
  | @cons entry group index groups h _ ih =>
    obtain ⟨hhead, htail⟩ := List.pairwise_cons.1 hgroups
    obtain ⟨first, hfirst, hkey⟩ := h.exists_key
    have horder : ¬((last.any fun key => decide (¬key < entry.firstKey)) = true) := by
      cases last with
      | none => simp
      | some key =>
        rw [← hkey]
        simpa using hlast key rfl first (by simp [hfirst])
    have hmay : ¬((group.any fun e => !r.bloom.mayContain e.key) = true) := by
      simp only [List.any_eq_true, Bool.not_eq_true', not_exists, not_and, Bool.not_eq_false]
      intro e he
      exact hbloom e (by simp [he])
    have hrest := ih htail (fun e he => hbloom e (by simp [List.mem_flatten.1 he]))
      (group.getLast?.map TableEntry.key) (by
        intro key hlastKey e he
        obtain ⟨final, hfinal, rfl⟩ := Option.map_eq_some_iff.1 hlastKey
        obtain ⟨later, hlater, he⟩ := List.mem_flatten.1 he
        exact hhead later hlater final (List.mem_of_getLast? hfinal) e he)
    rw [SSTableReader.blockEntries, Reading.eval_bind_of_ok h.read,
      Reading.eval_failIf_bind horder, Reading.eval_failIf_bind hmay,
      Reading.eval_bind_of_ok hrest]
    rfl

theorem eval_allEntries (hstore : ∀ e ∈ entries, Storable e)
    (hsorted : entries.Pairwise RecordOrder) (hsize : bytes.length ≤ maxInt64) :
    (SSTableReader.allEntries ⟨L.index, L.bloom, entries.length, L.minKey, L.maxKey⟩).eval
      (slice bytes) .eof = .ok entries := by
  obtain ⟨groups, hflat, hgroups, hholds⟩ := L.forall₂_holds hstore hsorted hsize
  have hbloom : ∀ e ∈ entries, L.bloom.mayContain e.key = true := by
    intro e he
    obtain ⟨filter, hfilter, heq⟩ := L.bloom_eq
    rw [heq]
    exact (BloomFilter.sized_newBloomFilter hfilter).mayContain_foldl_add
      (List.mem_map_of_mem he)
  have hblocks := eval_blockEntries ⟨L.index, L.bloom, entries.length, L.minKey, L.maxKey⟩ hholds
    hgroups (by rwa [hflat]) none (by simp)
  rw [hflat] at hblocks
  have hmin := L.minKey_eq
  have hmax := L.maxKey_eq
  rw [SSTableReader.allEntries, Reading.eval_bind_of_ok hblocks,
    Reading.eval_failIf_bind (by simp), Reading.eval_failIf_bind]
  · rfl
  · rintro ⟨hne, hbad⟩
    obtain ⟨e, rest, rfl⟩ := List.exists_cons_of_ne_nil hne
    rw [List.getLast?_cons] at hmax hbad
    rcases hbad with hbad | hbad
    · exact hbad (by simp [hmin])
    · exact hbad (by simp [hmax])

end Layout

structure TableOf (bytes : Bytes) (reader : SSTableReader) (entries : List TableEntry) : Prop where
  opens : (openSSTable bytes.length).eval (slice bytes) .eof = .ok reader
  reads : reader.allEntries.eval (slice bytes) .eof = .ok entries

theorem encodeTable_tableOf (h : encodeTable entries = .ok bytes) (hstore : ∀ e ∈ entries, Storable e)
    (hsorted : entries.Pairwise RecordOrder) (hsize : bytes.length ≤ maxInt64) :
    ∃ reader, TableOf bytes reader entries := by
  obtain ⟨L⟩ := encodeTable_layout h
  exact ⟨_, L.eval_open hstore hsorted hsize, L.eval_allEntries hstore hsorted hsize⟩

end MiniQuorum.Lsm
