import MiniQuorum.Codec.Frame
import MiniQuorum.Program.Checked

/-! The byte strings a replay accepts, and the scan as it runs over a buffer: every access is in
range whatever the bytes say. -/

namespace MiniQuorum.Codec

open Program

namespace Format

variable (F : Format)

/-! ### Accepted bytes -/

theorem exists_encodeSymbols : ∀ symbols : List UInt8, (∀ b ∈ symbols, F.isSymbol b = true) →
    symbols.length % 2 = 0 → ∃ body, symbols = F.encodeSymbols body
  | [], _, _ => ⟨[], rfl⟩
  | [_], _, heven => by simp at heven
  | hi :: lo :: rest, hs, heven => by
    have hlen : rest.length % 2 = 0 := by
      rw [List.length_cons, List.length_cons] at heven
      omega
    obtain ⟨body, hbody⟩ := exists_encodeSymbols rest (fun b hb => hs b (by simp [hb])) hlen
    obtain ⟨a, hhigh, -⟩ := F.exists_high (hs hi (by simp)) 0
    obtain ⟨b, hlow, hsame⟩ := F.exists_low (hs lo (by simp)) a
    exact ⟨b :: body, by simp [hlow, hsame, hhigh, hbody]⟩

theorem decodeFrame_eq_ok_iff {symbols payload : List UInt8}
    (hs : ∀ b ∈ symbols, F.isSymbol b = true) :
    F.decodeFrame symbols = .ok payload ↔
      payload.length < 2 ^ 32 ∧ symbols = F.encodeSymbols (F.header payload ++ payload) := by
  constructor
  · intro h
    have heven : symbols.length % 2 = 0 := by
      by_contra hodd
      rw [decodeFrame, if_pos hodd] at h
      cases h
    have hshort : ¬symbols.length / 2 < 8 := by
      intro hshort
      rw [decodeFrame, if_neg (by omega)] at h
      simp only [bind, Except.bind, pure, Except.pure, if_pos hshort] at h
      cases h
    obtain ⟨body, rfl⟩ := F.exists_encodeSymbols _ hs heven
    rw [length_encodeSymbols] at hshort
    obtain ⟨len, crc, rest, hlen, hcrc, rfl⟩ : ∃ len crc rest : List UInt8,
        len.length = 4 ∧ crc.length = 4 ∧ body = len ++ crc ++ rest := by
      refine ⟨body.take 4, (body.drop 4).take 4, body.drop 8, ?_, ?_, ?_⟩
      · rw [List.length_take]
        omega
      · rw [List.length_take, List.length_drop]
        omega
      · rw [List.append_assoc, ← List.drop_drop (i := 4) (j := 4), List.take_append_drop,
          List.take_append_drop]
    rw [decodeFrame_encodeSymbols F rest hlen hcrc] at h
    split at h
    · cases h
    next hsize =>
    split at h
    · cases h
    next hsum =>
    cases h
    simp only [ne_eq, not_not] at hsize hsum
    have hlenlt := ofLittleEndian_lt len
    rw [hlen] at hlenlt
    refine ⟨by omega, ?_⟩
    have hfirst : len = littleEndian 4 payload.length := by
      refine ofLittleEndian_inj (by simp [hlen]) ?_
      rw [ofLittleEndian_littleEndian, Nat.mod_eq_of_lt (by omega)]
      omega
    have hsecond : crc = littleEndian 4 (F.checksum payload).toNat := by
      refine ofLittleEndian_inj (by simp [hcrc]) ?_
      rw [ofLittleEndian_littleEndian, Nat.mod_eq_of_lt (by simpa using (F.checksum payload).isLt),
        hsum]
    rw [header, ← hfirst, ← hsecond]
  · rintro ⟨hlen, rfl⟩
    exact F.decodeFrame_header hlen

variable {σ ε : Type} (apply : σ → List UInt8 → Except ε σ)

theorem replayFrom_eq_ok_iff {s : σ} {offset : Nat} {bytes : List UInt8} {r : Replayed σ} :
    F.replayFrom apply s offset bytes = .ok r ↔
      ∃ payloads tail, bytes = F.frames payloads ++ tail ∧ (∀ p ∈ payloads, p.length < 2 ^ 32) ∧
        payloads.foldlM apply s = .ok r.state ∧
        r.complete = offset + (F.frames payloads).length ∧
        (tail = [] ∧ r.torn = false ∨ ∃ symbols, tail = F.start :: symbols ∧
          (∀ b ∈ symbols, F.isSymbol b = true) ∧ r.torn = true) := by
  constructor
  · intro h
    induction hlen : bytes.length using Nat.strongRecOn generalizing s offset bytes with
    | _ n ih =>
      cases bytes with
      | nil =>
        cases h
        exact ⟨[], [], rfl, by simp, rfl, rfl, .inl ⟨rfl, rfl⟩⟩
      | cons b rest =>
        by_cases hb : b = F.start
        swap
        · rw [F.replayFrom_boundary apply s offset hb] at h
          cases h
        subst hb
        have hsymbols : ∀ c ∈ rest.takeWhile F.isSymbol, F.isSymbol c = true :=
          fun c hc => List.mem_takeWhile_imp hc
        cases hdrop : rest.dropWhile F.isSymbol with
        | nil =>
          have hall := List.dropWhile_eq_nil_iff.1 hdrop
          rw [F.replayFrom_unterminated apply s offset hall] at h
          cases h
          exact ⟨[], F.start :: rest, rfl, by simp, rfl, rfl, .inr ⟨rest, rfl, hall, rfl⟩⟩
        | cons c later =>
          have hrest : rest = rest.takeWhile F.isSymbol ++ c :: later := by
            rw [← hdrop, List.takeWhile_append_dropWhile]
          have hc : F.isSymbol c = false := by
            have hhead := List.head?_dropWhile_not F.isSymbol rest
            simpa [hdrop] using hhead
          generalize rest.takeWhile F.isSymbol = symbols at hrest hsymbols
          subst hrest
          rw [F.replayFrom_interior apply s offset hsymbols hc] at h
          split at h
          · next hstop =>
            subst hstop
            cases hdecode : F.decodeFrame symbols with
            | error e => simp [hdecode] at h
            | ok payload =>
              rw [hdecode] at h
              dsimp only at h
              cases happly : apply s payload with
              | error e => simp [happly] at h
              | ok s' =>
                rw [happly] at h
                obtain ⟨hsmall, rfl⟩ := (F.decodeFrame_eq_ok_iff hsymbols).1 hdecode
                obtain ⟨payloads, tail, rfl, hpayloads, hfold, hcomplete, htail⟩ :=
                  ih later.length (by simp at hlen; omega) h rfl
                refine ⟨payload :: payloads, tail, by simp [frame],
                  List.forall_mem_cons.2 ⟨hsmall, hpayloads⟩,
                  foldlM_cons_eq_ok.2 ⟨s', happly, hfold⟩, ?_, htail⟩
                rw [hcomplete, frames_cons, List.length_append, frame, List.length_cons,
                  List.length_append, List.length_singleton]
                omega
          · split at h <;> cases h
  · rintro ⟨payloads, tail, rfl, hpayloads, hfold, hcomplete, htail⟩
    rw [F.replayFrom_frames apply offset hpayloads hfold, ← hcomplete]
    obtain ⟨state, complete, torn⟩ := r
    rcases htail with ⟨rfl, rfl⟩ | ⟨symbols, rfl, hsymbols, rfl⟩
    · rfl
    · exact F.replayFrom_unterminated apply _ _ hsymbols

/-! ### The scan over a buffer -/

open Checked

def decodePairsAt (symbols : List UInt8) : Nat → Nat → Except (Halt DecodeError) (List UInt8)
  | 0, _ => .ok []
  | count + 1, i => do
    let hi ← index symbols (2 * i)
    let lo ← index symbols (2 * i + 1)
    if !F.isSymbol hi then throw (.error (.invalidSymbol hi (2 * i)))
    else if !F.isSymbol lo then throw (.error (.invalidSymbol lo (2 * i + 1)))
    else do
      let decoded ← decodePairsAt symbols count (i + 1)
      return (((hi - F.base) <<< 4) ||| (lo - F.base)) :: decoded

def decodeSymbolsAt (size : Nat) (symbols : List UInt8) :
    Except (Halt DecodeError) (List UInt8) := do
  let want ← sized (checkedMul size 2)
  if want ≠ symbols.length then throw (.error (.symbolCount symbols.length want))
  else F.decodePairsAt symbols size 0

def decodeFrameAt (symbols : List UInt8) : Except (Halt DecodeError) (List UInt8) := do
  if symbols.length % 2 ≠ 0 then throw (.error (.oddSymbolCount symbols.length))
  let bodySize := symbols.length / 2
  if bodySize < 8 then throw (.error (.shortBody bodySize))
  let headerSymbols ← sized (checkedMul 8 2)
  let headerSymbols ← sized (checkedInt headerSymbols)
  let header ← F.decodeSymbolsAt 8 (← slice symbols 0 headerSymbols)
  let payloadSize := ofLittleEndian (← slice header 0 4)
  let wantBody ← sized (checkedAdd 8 payloadSize)
  if bodySize ≠ wantBody then throw (.error (.bodySize bodySize payloadSize))
  let payloadSize ← sized (checkedInt payloadSize)
  let payload ← F.decodeSymbolsAt payloadSize (← sliceFrom symbols headerSymbols)
  let stored := ofLittleEndian (← sliceFrom header 4)
  let computed := (F.checksum payload).toNat
  if stored ≠ computed then throw (.error (.checksumMismatch stored computed))
  return payload

def findTerminator (buf : List UInt8) : Nat → Nat → Except (Halt (Fault ε)) (Option Nat)
  | 0, _ => .error (.trap .overflow)
  | fuel + 1, position =>
    if position < buf.length then do
      let b ← index buf position
      if b = F.stop then return some position
      else if b = F.start then throw (.error (.startMarker position))
      else if !F.isSymbol b then throw (.error (.interior position b))
      else findTerminator buf fuel (position + 1)
    else return none

def replayBuffer (buf : List UInt8) : Nat → σ → Nat → Except (Halt (Fault ε)) (Replayed σ)
  | 0, _, _ => .error (.trap .overflow)
  | fuel + 1, s, offset =>
    if offset < buf.length then do
      let b ← index buf offset
      if b ≠ F.start then throw (.error (.boundary offset b))
      match ← F.findTerminator buf (buf.length + 1) (offset + 1) with
      | none => return ⟨s, offset, true⟩
      | some terminator => do
        let symbols ← slice buf (offset + 1) terminator
        match F.decodeFrameAt symbols with
        | .error (.trap t) => throw (.trap t)
        | .error (.error e) => throw (.error (.decode offset e))
        | .ok payload =>
          match apply s payload with
          | .error e => throw (.error (.apply offset e))
          | .ok s => replayBuffer buf fuel s (terminator + 1)
    else return ⟨s, offset, false⟩

theorem decodePairsAt_eq (symbols : List UInt8) (count i : Nat)
    (h : symbols.length = 2 * (i + count)) :
    F.decodePairsAt symbols count i = returned (F.decodePairs (2 * i) (symbols.drop (2 * i))) := by
  induction count generalizing i with
  | zero =>
    rw [List.drop_of_length_le (by omega)]
    rfl
  | succ count ih =>
    have hhi : 2 * i < symbols.length := by omega
    have hlo : 2 * i + 1 < symbols.length := by omega
    rw [decodePairsAt, index_of_getElem? (List.getElem?_eq_getElem hhi),
      index_of_getElem? (List.getElem?_eq_getElem hlo), ih (i + 1) (by omega),
      List.drop_eq_getElem_cons hhi, List.drop_eq_getElem_cons hlo, decodePairs]
    simp only [bind, Except.bind]
    by_cases hhigh : F.isSymbol symbols[2 * i]
    · by_cases hlow : F.isSymbol symbols[2 * i + 1]
      · simp only [hhigh, hlow, Bool.not_true, Bool.false_eq_true, if_false]
        rw [show 2 * i + 2 = 2 * (i + 1) by ring]
        cases F.decodePairs (2 * (i + 1)) (symbols.drop (2 * (i + 1))) <;> rfl
      · simp [hhigh, hlow, throw, throwThe, MonadExceptOf.throw]
    · simp [hhigh, throw, throwThe, MonadExceptOf.throw]

theorem decodeSymbolsAt_eq {size : Nat} (symbols : List UInt8) (hsize : size < 2 ^ 32) :
    F.decodeSymbolsAt size symbols = returned (F.decodeSymbols size symbols) := by
  rw [decodeSymbolsAt, decodeSymbols, checkedMul_of_le (by omega), Nat.mul_comm size 2]
  simp only [sized, bind, Except.bind]
  split
  · rfl
  · next hlen =>
    rw [F.decodePairsAt_eq symbols size 0 (by omega)]
    rfl

theorem length_decodePairs : ∀ {symbols decoded : List UInt8} (position : Nat),
    F.decodePairs position symbols = .ok decoded → decoded.length = symbols.length / 2
  | [], _, _, h => by
    cases h
    rfl
  | [_], _, _, h => by
    cases h
    simp
  | hi :: lo :: rest, decoded, position, h => by
    rw [decodePairs] at h
    split at h
    · cases h
    split at h
    · cases h
    obtain ⟨tail, htail, h⟩ := bind_eq_ok.1 h
    cases h
    rw [List.length_cons, length_decodePairs _ htail, List.length_cons, List.length_cons]
    omega

theorem length_decodeSymbols {size : Nat} {symbols decoded : List UInt8}
    (h : F.decodeSymbols size symbols = .ok decoded) : decoded.length = size := by
  rw [decodeSymbols] at h
  split at h
  · cases h
  · next hlen =>
    have := F.length_decodePairs 0 h
    omega

theorem decodeFrameAt_eq (symbols : List UInt8) :
    F.decodeFrameAt symbols = returned (F.decodeFrame symbols) := by
  rw [decodeFrameAt, decodeFrame]
  by_cases hodd : symbols.length % 2 ≠ 0
  · rw [if_pos hodd, if_pos hodd]
    rfl
  by_cases hshort : symbols.length / 2 < 8
  · rw [if_neg hodd, if_neg hodd]
    simp only [bind, Except.bind, pure, Except.pure, if_pos hshort]
    rfl
  rw [if_neg hodd, if_neg hodd]
  have hmul : checkedMul 8 2 = some 16 := by decide
  have hint : checkedInt 16 = some 16 := by decide
  simp only [bind, Except.bind, pure, Except.pure, if_neg hshort, hmul, hint, sized,
    slice_front (show 16 ≤ symbols.length by omega),
    F.decodeSymbolsAt_eq _ (show 8 < 2 ^ 32 by decide)]
  cases hheader : F.decodeSymbols 8 (symbols.take 16) with
  | error e => rfl
  | ok header =>
    have hlen := F.length_decodeSymbols hheader
    have hsmall := ofLittleEndian_lt (header.take 4)
    have hsmall : ofLittleEndian (header.take 4) < 2 ^ 32 := by
      simpa [List.length_take, hlen] using hsmall
    simp only [returned_ok, slice_front (show 4 ≤ header.length by omega),
      checkedAdd_of_le (show 8 + ofLittleEndian (header.take 4) ≤ 2 ^ 64 - 1 by omega)]
    by_cases hbody : symbols.length / 2 ≠ 8 + ofLittleEndian (header.take 4)
    · simp only [if_pos hbody]
      rfl
    · simp only [if_neg hbody, checkedInt_of_le (show ofLittleEndian (header.take 4) ≤ maxInt64 by
          simp only [maxInt64]; omega),
        sliceFrom_of_le (show 16 ≤ symbols.length by omega), F.decodeSymbolsAt_eq _ hsmall]
      cases F.decodeSymbols (ofLittleEndian (header.take 4)) (symbols.drop 16) with
      | error e => rfl
      | ok payload =>
        simp only [returned_ok, sliceFrom_of_le (show 4 ≤ header.length by omega)]
        split <;> rfl

theorem findTerminator_eq (buf : List UInt8) {fuel position : Nat} (hle : position ≤ buf.length)
    (hfuel : buf.length < fuel + position) :
    (F.findTerminator buf fuel position : Except (Halt (Fault ε)) (Option Nat)) =
      let symbols := (buf.drop position).takeWhile F.isSymbol
      match (buf.drop position).dropWhile F.isSymbol with
      | [] => .ok none
      | b :: _ =>
        if b = F.stop then .ok (some (position + symbols.length))
        else if b = F.start then .error (.error (.startMarker (position + symbols.length)))
        else .error (.error (.interior (position + symbols.length) b)) := by
  induction fuel generalizing position with
  | zero => omega
  | succ fuel ih =>
    rw [findTerminator]
    by_cases hlt : position < buf.length
    · have hget := List.getElem?_eq_getElem hlt
      rw [if_pos hlt, index_of_getElem? hget, List.drop_eq_getElem_cons hlt]
      simp only [bind, Except.bind]
      by_cases hsymbol : F.isSymbol buf[position] = true
      · have hstop : buf[position] ≠ F.stop := by
          rintro heq
          rw [heq, F.isSymbol_stop] at hsymbol
          cases hsymbol
        have hstart : buf[position] ≠ F.start := by
          rintro heq
          rw [heq, F.isSymbol_start] at hsymbol
          cases hsymbol
        rw [if_neg hstop, if_neg hstart, hsymbol, ih (by omega) (by omega), List.takeWhile_cons_of_pos hsymbol,
          List.dropWhile_cons_of_pos hsymbol]
        simp only [Bool.not_true, Bool.false_eq_true, if_false, List.length_cons]
        rw [show ∀ n, position + 1 + n = position + (n + 1) by omega]
      · rw [List.takeWhile_cons_of_neg hsymbol, List.dropWhile_cons_of_neg hsymbol]
        simp only [hsymbol, List.length_nil, Nat.add_zero]
        split
        · rfl
        · split <;> rfl
    · rw [if_neg hlt, List.drop_of_length_le (by omega)]
      rfl

theorem replayBuffer_eq (buf : List UInt8) {fuel offset : Nat} (s : σ) (hle : offset ≤ buf.length)
    (hfuel : buf.length < fuel + offset) :
    F.replayBuffer apply buf fuel s offset =
      returned (F.replayFrom apply s offset (buf.drop offset)) := by
  induction fuel generalizing s offset with
  | zero => omega
  | succ fuel ih =>
    rw [replayBuffer]
    by_cases hlt : offset < buf.length
    swap
    · rw [if_neg hlt, List.drop_of_length_le (by omega)]
      rfl
    rw [if_pos hlt, index_of_getElem? (List.getElem?_eq_getElem hlt), List.drop_eq_getElem_cons hlt]
    simp only [bind, Except.bind]
    by_cases hb : buf[offset] = F.start
    swap
    · rw [if_pos hb, F.replayFrom_boundary apply s offset hb]
      rfl
    rw [if_neg (not_not.2 hb), hb, F.findTerminator_eq buf (by omega) (by omega)]
    have hsymbols : ∀ c ∈ (buf.drop (offset + 1)).takeWhile F.isSymbol, F.isSymbol c = true :=
      fun c hc => List.mem_takeWhile_imp hc
    cases hdrop : (buf.drop (offset + 1)).dropWhile F.isSymbol with
    | nil =>
      rw [F.replayFrom_unterminated apply s offset (List.dropWhile_eq_nil_iff.1 hdrop)]
      rfl
    | cons c later =>
      have hrest : buf.drop (offset + 1) =
          (buf.drop (offset + 1)).takeWhile F.isSymbol ++ c :: later := by
        rw [← hdrop, List.takeWhile_append_dropWhile]
      have hc : F.isSymbol c = false := by
        have hhead := List.head?_dropWhile_not F.isSymbol (buf.drop (offset + 1))
        simpa [hdrop] using hhead
      generalize (buf.drop (offset + 1)).takeWhile F.isSymbol = symbols at hrest hsymbols ⊢
      have hlen := congrArg List.length hrest
      rw [List.length_drop, List.length_append, List.length_cons] at hlen
      have hslice : (buf.take (offset + 1 + symbols.length)).drop (offset + 1) = symbols := by
        rw [List.drop_take, hrest, Nat.add_sub_cancel_left, List.take_left' rfl]
      have hlater : buf.drop (offset + 1 + symbols.length + 1) = later := by
        rw [Nat.add_assoc (offset + 1), ← List.drop_drop, hrest, List.drop_append]
        simp
      rw [hrest, F.replayFrom_interior apply s offset hsymbols hc]
      dsimp only
      by_cases hstop : c = F.stop
      · rw [if_pos hstop, if_pos hstop]
        simp only [slice_of_le (show offset + 1 ≤ offset + 1 + symbols.length by omega)
          (show offset + 1 + symbols.length ≤ buf.length by omega), hslice, F.decodeFrameAt_eq]
        cases F.decodeFrame symbols with
        | error e => rfl
        | ok payload =>
          simp only [returned_ok]
          cases apply s payload with
          | error e => rfl
          | ok s' =>
            simp only [ih s' (show offset + 1 + symbols.length + 1 ≤ buf.length by omega) (by omega),
              hlater]
            rw [show offset + 1 + symbols.length + 1 = offset + symbols.length + 2 by omega]
      · rw [if_neg hstop, if_neg hstop]
        by_cases hstart : c = F.start
        · rw [if_pos hstart, if_pos hstart]
          rfl
        · rw [if_neg hstart, if_neg hstart]
          rfl

end Format

end MiniQuorum.Codec
