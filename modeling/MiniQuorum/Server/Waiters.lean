import MiniQuorum.Collections.Lookup
import MiniQuorum.Server.KV

/-! The waiter table of the KV applier, map by map and loop by loop.  Its channels hold one
outcome, so a second send would block until the first is read. -/

namespace MiniQuorum.Server

open Collections Raft StateMachine

/-- What failed in a Ready: the host stops with "raft storage save" or "state-machine apply"
and the cause. -/
inductive HostError
  | storageSave (err : String)
  | stateMachineApply (err : String)
  deriving DecidableEq, Repr

inductive Outcome
  | result (result : Result)
  | stale
  | err (err : HostError)
  deriving DecidableEq, Repr

/-- `received` is what the reader has taken out of the buffer. -/
structure Channel where
  buffer : Option Outcome
  received : List Outcome
  deriving DecidableEq, Repr

namespace Channel

def empty : Channel := ⟨none, []⟩

def outcomes (ch : Channel) : List Outcome := ch.received ++ ch.buffer.toList

def send (ch : Channel) (outcome : Outcome) : Option Channel :=
  match ch.buffer with
  | none => some { ch with buffer := some outcome }
  | some _ => none

def receive (ch : Channel) : Channel := ⟨none, ch.outcomes⟩

theorem outcomes_receive (ch : Channel) : ch.receive.outcomes = ch.outcomes :=
  List.append_nil _

theorem send_of_outcomes {ch : Channel} (h : ch.outcomes = []) (outcome : Outcome) :
    ch.send outcome = some ⟨some outcome, []⟩ := by
  obtain ⟨buffer, received⟩ := ch
  obtain ⟨rfl, hbuffer⟩ := List.append_eq_nil_iff.mp h
  cases buffer with
  | none => rfl
  | some o => cases hbuffer

end Channel

def Enumerates {K : Type} [DecidableEq K] (order : List K) (keys : Finset K) : Prop :=
  order.Nodup ∧ order.toFinset = keys

instance {K : Type} [DecidableEq K] (order : List K) (keys : Finset K) :
    Decidable (Enumerates order keys) :=
  inferInstanceAs (Decidable (_ ∧ _))

/-- Channel `id` was made for the waiter at `keys[id]`; `cancelled` are the channels whose
waiter a cancel removed. -/
structure WaiterTable where
  waiters : Finmap fun _ : WaiterKey => CallID
  byIndex : Finmap fun _ : Nat => Finset Nat
  channels : CallID → Channel
  blocked : Bool
  keys : List WaiterKey
  cancelled : List CallID

namespace WaiterTable

def empty : WaiterTable where
  waiters := ∅
  byIndex := ∅
  channels _ := Channel.empty
  blocked := false
  keys := []
  cancelled := []

def register (t : WaiterTable) (index term : Nat) : WaiterTable :=
  let ch := t.keys.length
  let terms := (t.byIndex.lookup index).getD ∅
  { t with
    waiters := t.waiters.insert ⟨index, term⟩ ch
    byIndex := t.byIndex.insert index (insert term terms)
    channels := Function.update t.channels ch Channel.empty
    keys := t.keys ++ [⟨index, term⟩] }

def removeFromIndex (t : WaiterTable) (index term : Nat) : WaiterTable :=
  match t.byIndex.lookup index with
  | none => t
  | some terms =>
    if terms.erase term = ∅ then { t with byIndex := t.byIndex.erase index }
    else { t with byIndex := t.byIndex.insert index (terms.erase term) }

def cancel (t : WaiterTable) (index term : Nat) : WaiterTable :=
  match t.waiters.lookup ⟨index, term⟩ with
  | none => t
  | some ch =>
    { t with
      waiters := t.waiters.erase ⟨index, term⟩
      cancelled := ch :: t.cancelled }.removeFromIndex index term

def deliver (t : WaiterTable) (ch : CallID) (outcome : Outcome) : WaiterTable :=
  match (t.channels ch).send outcome with
  | some channel => { t with channels := Function.update t.channels ch channel }
  | none => { t with blocked := true }

def failOne (err : HostError) (t : WaiterTable) (key : WaiterKey) : WaiterTable :=
  match t.waiters.lookup key with
  | none => t
  | some ch =>
    ({ t with waiters := t.waiters.erase key }.removeFromIndex key.index key.term).deliver ch
      (.err err)

def failStop (t : WaiterTable) (err : HostError) (order : List WaiterKey) : WaiterTable :=
  order.foldl (failOne err) t

def fulfillOne (index term : Nat) (result : Result) (t : WaiterTable) (registered : Nat) :
    WaiterTable :=
  match t.waiters.lookup ⟨index, registered⟩ with
  | none => t
  | some ch =>
    { t with waiters := t.waiters.erase ⟨index, registered⟩ }.deliver ch
      (if registered = term then .result result else .stale)

def fulfill (t : WaiterTable) (index term : Nat) (result : Result) (order : List Nat) :
    WaiterTable :=
  let t := order.foldl (fulfillOne index term result) t
  { t with byIndex := t.byIndex.erase index }

def receive (t : WaiterTable) (ch : CallID) : WaiterTable :=
  { t with channels := Function.update t.channels ch (t.channels ch).receive }

def outcomes (t : WaiterTable) (ch : CallID) : List Outcome := (t.channels ch).outcomes

/-- Every waiter is still registered, cancelled, or has its one outcome, which `J` justifies. -/
structure Sound (J : WaiterKey → Outcome → Prop) (t : WaiterTable) : Prop where
  waiting : ∀ key id, t.waiters.lookup key = some id →
    t.keys[id]? = some key ∧ t.outcomes id = [] ∧ id ∉ t.cancelled
  settled : ∀ id key, t.keys[id]? = some key →
    t.waiters.lookup key = some id ∨ id ∈ t.cancelled ∨ t.outcomes id ≠ []
  single : ∀ id, (t.outcomes id).length ≤ 1
  justified : ∀ id key, t.keys[id]? = some key → ∀ o ∈ t.outcomes id, J key o
  made : ∀ id ∈ t.cancelled, id < t.keys.length ∧ t.outcomes id = []
  unblocked : t.blocked = false

structure Paired (t : WaiterTable) : Prop where
  pairs : ∀ index term,
    ⟨index, term⟩ ∈ t.waiters ↔ ∃ terms, t.byIndex.lookup index = some terms ∧ term ∈ terms
  nonempty : ∀ index terms, t.byIndex.lookup index = some terms → terms.Nonempty

variable {J J' : WaiterKey → Outcome → Prop} {t : WaiterTable}

theorem Sound.empty (J : WaiterKey → Outcome → Prop) : Sound J empty where
  waiting := by rintro key id ⟨⟩
  settled := by rintro id key ⟨⟩
  single _ := Nat.zero_le _
  justified := by rintro id key ⟨⟩
  made := by rintro id ⟨⟩
  unblocked := rfl

theorem Paired.empty : Paired empty where
  pairs index term := by
    constructor
    · intro h
      cases Finmap.notMem_empty h
    · rintro ⟨terms, ⟨⟩, _⟩
  nonempty := by rintro index terms ⟨⟩

theorem Sound.mono (h : Sound J t) (hJ : ∀ key o, J key o → J' key o) : Sound J' t :=
  { h with justified := fun id key hkey o ho => hJ key o (h.justified id key hkey o ho) }

theorem removeFromIndex_eq (t : WaiterTable) (index term : Nat) :
    ∃ m, t.removeFromIndex index term = { t with byIndex := m } := by
  rw [removeFromIndex]
  split
  · exact ⟨_, rfl⟩
  · split <;> exact ⟨_, rfl⟩

theorem Sound.cases (h : Sound J t) {key : WaiterKey} {id : CallID}
    (hkey : t.keys[id]? = some key) :
    t.waiters.lookup key = some id ∧ id ∉ t.cancelled ∧ t.outcomes id = [] ∨
      id ∈ t.cancelled ∧ t.outcomes id = [] ∨ id ∉ t.cancelled ∧ ∃ o, t.outcomes id = [o] := by
  rcases h.settled id key hkey with hwaiting | hc | hne
  · obtain ⟨-, hempty, hc⟩ := h.waiting key id hwaiting
    exact .inl ⟨hwaiting, hc, hempty⟩
  · exact .inr (.inl ⟨hc, (h.made id hc).2⟩)
  · refine .inr (.inr ⟨fun hc => hne (h.made id hc).2, List.length_eq_one_iff.mp ?_⟩)
    exact le_antisymm (h.single id) (List.length_pos_iff.mpr hne)

theorem Sound.removeFromIndex (h : Sound J t) (index term : Nat) :
    Sound J (t.removeFromIndex index term) := by
  obtain ⟨m, hm⟩ := t.removeFromIndex_eq index term
  rw [hm]
  exact { h with }

theorem Sound.lt (h : Sound J t) {key : WaiterKey} {id : CallID}
    (hkey : t.waiters.lookup key = some id) : id < t.keys.length :=
  (List.getElem?_eq_some_iff.mp (h.waiting key id hkey).1).1

theorem getElem?_concat_iff {l : List WaiterKey} {key key' : WaiterKey} {i : Nat} :
    (l ++ [key])[i]? = some key' ↔ l[i]? = some key' ∨ i = l.length ∧ key' = key := by
  rcases lt_trichotomy i l.length with hlt | rfl | hgt
  · rw [List.getElem?_append_left hlt]
    simp [hlt.ne]
  · simp [eq_comm]
  · rw [List.getElem?_eq_none (by simp; omega), List.getElem?_eq_none hgt.le]
    simp [hgt.ne']

theorem outcomes_register (t : WaiterTable) (index term : Nat) (id : CallID) :
    (t.register index term).outcomes id = if id = t.keys.length then [] else t.outcomes id := by
  rw [outcomes, register]
  simp only [Function.update_apply]
  split <;> rfl

theorem Sound.register (h : Sound J t) {index term : Nat}
    (hfresh : ⟨index, term⟩ ∉ t.waiters) : Sound J (t.register index term) where
  waiting key id hkey := by
    rw [outcomes_register]
    by_cases hk : key = ⟨index, term⟩
    · subst hk
      cases (Finmap.lookup_insert _).symm.trans hkey
      exact ⟨List.getElem?_concat_length, if_pos rfl, fun hc => (h.made _ hc).1.false⟩
    · have hold := (Finmap.lookup_insert_of_ne _ hk).symm.trans hkey
      obtain ⟨hkeys, hout, hc⟩ := h.waiting key id hold
      exact ⟨getElem?_concat_iff.mpr (.inl hkeys), by rw [if_neg (h.lt hold).ne, hout], hc⟩
  settled id key hkey := by
    rcases getElem?_concat_iff.mp hkey with hold | ⟨rfl, rfl⟩
    · have hlt := (List.getElem?_eq_some_iff.mp hold).1
      rw [outcomes_register, if_neg hlt.ne]
      refine (h.settled id key hold).imp_left fun hw => ?_
      refine (Finmap.lookup_insert_of_ne _ ?_).trans hw
      rintro rfl
      exact hfresh (Finmap.mem_iff.mpr ⟨id, hw⟩)
    · exact .inl (Finmap.lookup_insert _)
  single id := by
    rw [outcomes_register]
    split
    · exact Nat.zero_le _
    · exact h.single id
  justified id key hkey o ho := by
    rw [outcomes_register] at ho
    rcases getElem?_concat_iff.mp hkey with hold | ⟨rfl, rfl⟩
    · rw [if_neg (List.getElem?_eq_some_iff.mp hold).1.ne] at ho
      exact h.justified id key hold o ho
    · rw [if_pos rfl] at ho
      cases ho
  made id hid := by
    obtain ⟨hlt, hempty⟩ := h.made id hid
    rw [outcomes_register, if_neg hlt.ne, WaiterTable.register, List.length_append]
    exact ⟨hlt.trans (Nat.lt_succ_self _), hempty⟩
  unblocked := h.unblocked

theorem Sound.cancel (h : Sound J t) (index term : Nat) : Sound J (t.cancel index term) := by
  rw [WaiterTable.cancel]
  split
  · exact h
  · rename_i ch hch
    apply Sound.removeFromIndex
    exact { h with
      waiting := fun key id hkey => by
        have hne : key ≠ ⟨index, term⟩ := by
          rintro rfl
          cases (Finmap.lookup_erase ..).symm.trans hkey
        have hold := (Finmap.lookup_erase_ne hne).symm.trans hkey
        obtain ⟨hkeys, hout, hc⟩ := h.waiting key id hold
        refine ⟨hkeys, hout, fun hmem => ?_⟩
        rcases List.mem_cons.mp hmem with rfl | hmem
        · exact hne (Option.some.inj (hkeys.symm.trans (h.waiting _ _ hch).1))
        · exact hc hmem
      settled := fun id key hkey => by
        rcases h.settled id key hkey with hw | hc | hout
        · by_cases hk : key = ⟨index, term⟩
          · subst hk
            cases hch.symm.trans hw
            exact .inr (.inl List.mem_cons_self)
          · exact .inl ((Finmap.lookup_erase_ne hk).trans hw)
        · exact .inr (.inl (List.mem_cons_of_mem _ hc))
        · exact .inr (.inr hout)
      made := fun id hid => by
        rcases List.mem_cons.mp hid with rfl | hid
        · exact ⟨h.lt hch, (h.waiting _ _ hch).2.1⟩
        · exact h.made id hid }

theorem Sound.outcomes_resolve (h : Sound J t) {key : WaiterKey} {id : CallID}
    (hkey : t.waiters.lookup key = some id) (o : Outcome) (i : CallID) :
    outcomes ({ t with waiters := t.waiters.erase key }.deliver id o) i =
      if i = id then [o] else t.outcomes i := by
  have hsend := Channel.send_of_outcomes (h.waiting key id hkey).2.1 o
  rw [deliver]
  simp only [hsend, outcomes, Function.update_apply]
  split <;> rfl

theorem Sound.resolve (h : Sound J t) {key : WaiterKey} {id : CallID} {o : Outcome}
    (hkey : t.waiters.lookup key = some id) (ho : J key o) :
    Sound J ({ t with waiters := t.waiters.erase key }.deliver id o) := by
  obtain ⟨hkeys, hempty, hcancelled⟩ := h.waiting key id hkey
  have hout := h.outcomes_resolve hkey o
  rw [deliver, Channel.send_of_outcomes hempty o] at hout ⊢
  refine ⟨fun key' i hkey' => ?_, fun i key' hkey' => ?_, fun i => ?_, fun i key' hkey' o' ho' => ?_,
    fun i hi => ⟨(h.made i hi).1, ?_⟩, h.unblocked⟩
  · have hne : key' ≠ key := by
      rintro rfl
      cases (Finmap.lookup_erase ..).symm.trans hkey'
    obtain ⟨hkeys', hempty', hc⟩ := h.waiting key' i ((Finmap.lookup_erase_ne hne).symm.trans hkey')
    refine ⟨hkeys', ?_, hc⟩
    rw [hout, if_neg, hempty']
    rintro rfl
    exact hne (Option.some.inj (hkeys'.symm.trans hkeys))
  · rw [hout]
    by_cases hi : i = id
    · subst hi
      exact .inr (.inr (by simp))
    · rw [if_neg hi]
      refine (h.settled i key' hkey').imp_left fun hw => ?_
      refine (Finmap.lookup_erase_ne ?_).trans hw
      rintro rfl
      exact hi (Option.some.inj (hw.symm.trans hkey))
  · rw [hout]
    split
    · exact le_rfl
    · exact h.single i
  · rw [hout] at ho'
    split at ho'
    · rename_i hi
      subst hi
      cases List.mem_singleton.mp ho'
      cases hkeys.symm.trans hkey'
      exact ho
    · exact h.justified i key' hkey' o' ho'
  · rw [hout, if_neg, (h.made i hi).2]
    rintro rfl
    exact hcancelled hi

theorem outcomes_receive (t : WaiterTable) (id i : CallID) :
    (t.receive id).outcomes i = t.outcomes i := by
  rw [outcomes, receive]
  simp only [Function.update_apply]
  split
  · rename_i hi
    rw [hi]
    exact Channel.outcomes_receive _
  · rfl

theorem Sound.receive (h : Sound J t) (id : CallID) : Sound J (t.receive id) where
  waiting key i hkey := by
    rw [outcomes_receive]
    exact h.waiting key i hkey
  settled i key hkey := by
    rw [outcomes_receive]
    exact h.settled i key hkey
  single i := by
    rw [outcomes_receive]
    exact h.single i
  justified i key hkey o ho := by
    rw [outcomes_receive] at ho
    exact h.justified i key hkey o ho
  made i hi := by
    rw [outcomes_receive]
    exact h.made i hi
  unblocked := h.unblocked

theorem Paired.register (h : Paired t) (index term : Nat) : Paired (t.register index term) where
  pairs i u := by
    have hmem : (⟨i, u⟩ : WaiterKey) ∈ (t.register index term).waiters ↔
        i = index ∧ u = term ∨ ∃ terms, t.byIndex.lookup i = some terms ∧ u ∈ terms := by
      rw [WaiterTable.register, Finmap.mem_insert, h.pairs, WaiterKey.mk.injEq]
    rw [hmem]
    by_cases hi : i = index
    · subst hi
      rw [show (t.register i term).byIndex.lookup i = _ from Finmap.lookup_insert _]
      cases hl : t.byIndex.lookup i <;> simp
    · rw [show (t.register index term).byIndex.lookup i = _ from Finmap.lookup_insert_of_ne _ hi]
      simp [hi]
  nonempty i terms hterms := by
    by_cases hi : i = index
    · subst hi
      cases (Finmap.lookup_insert _).symm.trans hterms
      exact Finset.insert_nonempty _ _
    · exact h.nonempty i terms ((Finmap.lookup_insert_of_ne _ hi).symm.trans hterms)

theorem lookup_removeFromIndex (t : WaiterTable) (index term i : Nat) :
    (t.removeFromIndex index term).byIndex.lookup i =
      if i = index then ((t.byIndex.lookup index).map (·.erase term)).filter (· ≠ ∅)
      else t.byIndex.lookup i := by
  rw [removeFromIndex]
  split
  · rename_i hnone
    split
    · rename_i hi
      rw [hi, hnone]
      rfl
    · rfl
  · rename_i terms hterms
    rw [hterms]
    by_cases hi : i = index
    · subst hi
      split
      · rename_i hempty
        simp [hempty, Finmap.lookup_erase, Option.filter]
      · rename_i hne
        simp [hne, Finmap.lookup_insert, Option.filter]
    · rw [if_neg hi]
      split
      · exact Finmap.lookup_erase_ne hi
      · exact Finmap.lookup_insert_of_ne _ hi

theorem Paired.remove (h : Paired t) (index term : Nat) :
    Paired ({ t with waiters := t.waiters.erase ⟨index, term⟩ }.removeFromIndex index term) where
  pairs i u := by
    obtain ⟨m, hm⟩ := removeFromIndex_eq
      { t with waiters := t.waiters.erase ⟨index, term⟩ } index term
    have hmem : (⟨i, u⟩ : WaiterKey) ∈
        ({ t with waiters := t.waiters.erase ⟨index, term⟩ }.removeFromIndex index term).waiters ↔
        ¬ (i = index ∧ u = term) ∧ ∃ terms, t.byIndex.lookup i = some terms ∧ u ∈ terms := by
      rw [hm, Finmap.mem_erase, h.pairs, ne_eq, WaiterKey.mk.injEq]
    rw [hmem, lookup_removeFromIndex]
    by_cases hi : i = index
    · subst hi
      rw [if_pos rfl]
      cases hl : t.byIndex.lookup i with
      | none => simp
      | some terms =>
        by_cases hempty : terms.erase term = ∅
        · have hall : u ≠ term → u ∉ terms := fun hne hu =>
            Finset.notMem_empty u (hempty ▸ Finset.mem_erase.mpr ⟨hne, hu⟩)
          simpa [hempty, Option.filter] using hall
        · simp [hempty, Option.filter, Finset.mem_erase]
    · simp [hi]
  nonempty i terms hterms := by
    rw [lookup_removeFromIndex] at hterms
    split at hterms
    · obtain ⟨_, hne⟩ := Option.filter_eq_some_iff.mp hterms
      exact Finset.nonempty_iff_ne_empty.mpr (of_decide_eq_true hne)
    · exact h.nonempty i terms hterms

theorem Paired.cancel (h : Paired t) (index term : Nat) : Paired (t.cancel index term) := by
  rw [WaiterTable.cancel]
  split
  · exact h
  · rename_i ch _
    have hcancelled : Paired { t with cancelled := ch :: t.cancelled } := { h with }
    exact hcancelled.remove index term

theorem deliver_waiters (t : WaiterTable) (ch : CallID) (o : Outcome) :
    (t.deliver ch o).waiters = t.waiters ∧ (t.deliver ch o).byIndex = t.byIndex := by
  rw [deliver]
  split <;> exact ⟨rfl, rfl⟩

theorem deliver_keys (t : WaiterTable) (ch : CallID) (o : Outcome) :
    (t.deliver ch o).keys = t.keys := by
  rw [deliver]
  split <;> rfl

theorem Paired.deliver (h : Paired t) (ch : CallID) (o : Outcome) : Paired (t.deliver ch o) := by
  obtain ⟨hwaiters, hindex⟩ := t.deliver_waiters ch o
  refine ⟨fun index term => ?_, fun index terms hterms => ?_⟩
  · rw [hwaiters, hindex]
    exact h.pairs index term
  · rw [hindex] at hterms
    exact h.nonempty index terms hterms

theorem Paired.byIndex_eq (h : Paired t) (hempty : t.waiters = ∅) : t.byIndex = ∅ := by
  refine Finmap.ext_lookup fun index => ?_
  rw [Finmap.lookup_empty]
  cases hl : t.byIndex.lookup index with
  | none => rfl
  | some terms =>
    obtain ⟨term, hterm⟩ := h.nonempty index terms hl
    have hmem := (h.pairs index term).mpr ⟨terms, hl, hterm⟩
    rw [hempty] at hmem
    cases Finmap.notMem_empty hmem

section Loops

variable {K : Type} {step : WaiterTable → K → WaiterTable} {visit : K → WaiterKey}
  {answer : K → Outcome} {id : CallID}

theorem Sound.id_eq (h : Sound J t) {key key' : WaiterKey} (hkey : t.waiters.lookup key = some id)
    (hkey' : t.waiters.lookup key' = some id) : key = key' :=
  Option.some.inj ((h.waiting key id hkey).1.symm.trans (h.waiting key' id hkey').1)

/-- The body of a loop that resolves the waiter at `visit k`, if there is one. -/
structure Answering (step : WaiterTable → K → WaiterTable) (visit : K → WaiterKey)
    (answer : K → Outcome) : Prop where
  injective : Function.Injective visit
  keys : ∀ t k, (step t k).keys = t.keys
  lookup : ∀ t k key, (step t k).waiters.lookup key =
    if key = visit k then none else t.waiters.lookup key
  sound : ∀ {J t} k, Sound J t → J (visit k) (answer k) → Sound J (step t k)
  outcomes : ∀ {J t} k id, Sound J t → (step t k).outcomes id =
    if t.waiters.lookup (visit k) = some id then [answer k] else t.outcomes id

namespace Answering

variable {order : List K} {k : K}

theorem sound_foldl (hstep : Answering step visit answer) (h : Sound J t)
    (hJ : ∀ k, J (visit k) (answer k)) (order : List K) : Sound J (order.foldl step t) := by
  induction order generalizing t with
  | nil => exact h
  | cons k order ih => exact ih (hstep.sound k h (hJ k))

theorem keys_foldl (hstep : Answering step visit answer) (order : List K) :
    (order.foldl step t).keys = t.keys := by
  induction order generalizing t with
  | nil => rfl
  | cons k order ih => exact ih.trans (hstep.keys t k)

theorem lookup_foldl (hstep : Answering step visit answer) (order : List K) (key : WaiterKey) :
    (order.foldl step t).waiters.lookup key =
      if key ∈ order.map visit then none else t.waiters.lookup key := by
  induction order generalizing t with
  | nil => simp
  | cons k order ih =>
    rw [List.foldl_cons, ih, hstep.lookup]
    by_cases hkey : key = visit k <;> simp [hkey]

theorem outcomes_foldl_of_not (hstep : Answering step visit answer)
    (h : Sound (fun _ _ => True) t) (hnot : ∀ k ∈ order, t.waiters.lookup (visit k) ≠ some id) :
    (order.foldl step t).outcomes id = t.outcomes id := by
  induction order generalizing t with
  | nil => rfl
  | cons k order ih =>
    rw [List.foldl_cons, ih (hstep.sound k h trivial), hstep.outcomes k id h,
      if_neg (hnot k List.mem_cons_self)]
    intro k' hk'
    rw [hstep.lookup]
    split
    · exact (Option.some_ne_none _).symm
    · exact hnot k' (List.mem_cons_of_mem _ hk')

theorem outcomes_foldl_of_mem (hstep : Answering step visit answer)
    (h : Sound (fun _ _ => True) t) (hk : k ∈ order)
    (hkey : t.waiters.lookup (visit k) = some id) :
    (order.foldl step t).outcomes id = [answer k] := by
  induction order generalizing t with
  | nil => cases hk
  | cons k' order ih =>
    have hnext := hstep.sound k' h trivial
    by_cases hk' : k' = k
    · subst hk'
      -- the waiter is gone, so the rest of the loop passes its channel by
      rw [List.foldl_cons, hstep.outcomes_foldl_of_not hnext, hstep.outcomes k' id h, if_pos hkey]
      intro j _
      rw [hstep.lookup]
      split
      · exact (Option.some_ne_none _).symm
      · next hne => exact fun hj => hne (h.id_eq hj hkey)
    · refine ih hnext (List.mem_of_ne_of_mem (Ne.symm hk') hk) ?_
      rw [hstep.lookup, if_neg fun heq => hk' (hstep.injective heq).symm, hkey]

end Answering

variable {index term : Nat} {result : Result} {err : HostError}

theorem fulfillOne_byIndex (registered : Nat) :
    (t.fulfillOne index term result registered).byIndex = t.byIndex := by
  rw [fulfillOne]
  split
  · rfl
  · exact (deliver_waiters ..).2

theorem foldl_fulfillOne_byIndex (order : List Nat) :
    (order.foldl (fulfillOne index term result) t).byIndex = t.byIndex := by
  induction order generalizing t with
  | nil => rfl
  | cons registered order ih => exact ih.trans (fulfillOne_byIndex registered)

theorem answering_fulfillOne (index term : Nat) (result : Result) :
    Answering (fulfillOne index term result) (fun registered => ⟨index, registered⟩)
      (fun registered => if registered = term then .result result else .stale) where
  injective _ _ heq := (WaiterKey.mk.inj heq).2
  keys t registered := by
    rw [fulfillOne]
    split
    · rfl
    · exact deliver_keys ..
  lookup t registered key := by
    rw [fulfillOne]
    split
    · next hnone =>
      split
      · next hkey => rw [hkey, hnone]
      · rfl
    · rw [(deliver_waiters ..).1]
      exact lookup_erase_eq ..
  sound registered h hJ := by
    rw [fulfillOne]
    split
    · exact h
    · exact h.resolve ‹_› hJ
  outcomes registered id h := by
    rw [fulfillOne]
    split
    · next hnone => rw [hnone, if_neg (Option.some_ne_none _).symm]
    · next ch hch => simp only [h.outcomes_resolve hch, hch, Option.some.injEq, eq_comm]

theorem answering_failOne (err : HostError) :
    Answering (failOne err) (fun key => key) (fun _ => .err err) where
  injective _ _ heq := heq
  keys t key := by
    rw [failOne]
    split
    · rfl
    · obtain ⟨m, hm⟩ := removeFromIndex_eq { t with waiters := t.waiters.erase key } key.index key.term
      rw [deliver_keys, hm]
  lookup t key key' := by
    rw [failOne]
    split
    · next hnone =>
      split
      · next hkey => rw [hkey, hnone]
      · rfl
    · obtain ⟨m, hm⟩ := removeFromIndex_eq { t with waiters := t.waiters.erase key } key.index key.term
      rw [(deliver_waiters ..).1, hm]
      exact lookup_erase_eq ..
  sound := by
    intro J t key h hJ
    rw [failOne]
    split
    · exact h
    · next ch hch =>
      obtain ⟨m, hm⟩ := removeFromIndex_eq { t with waiters := t.waiters.erase key } key.index key.term
      have hindex : Sound J { t with byIndex := m } := { h with }
      rw [hm]
      exact hindex.resolve hch hJ
  outcomes := by
    intro J t key id h
    rw [failOne]
    split
    · next hnone => rw [hnone, if_neg (Option.some_ne_none _).symm]
    · next ch hch =>
      obtain ⟨m, hm⟩ := removeFromIndex_eq { t with waiters := t.waiters.erase key } key.index key.term
      have hindex : Sound J { t with byIndex := m } := { h with }
      rw [hm, hch]
      simp only [hindex.outcomes_resolve hch, Option.some.injEq, eq_comm]
      rfl

theorem Sound.fulfill (h : Sound J t) (hresult : J ⟨index, term⟩ (.result result))
    (hstale : ∀ registered, registered ≠ term → J ⟨index, registered⟩ .stale) (order : List Nat) :
    Sound J (t.fulfill index term result order) := by
  refine { (answering_fulfillOne index term result).sound_foldl h (fun registered => ?_) order with }
  split
  · next heq => exact heq ▸ hresult
  · next hne => exact hstale registered hne

section Fulfill

variable {order : List Nat} (horder : Enumerates order ((t.byIndex.lookup index).getD ∅))
include horder

theorem Paired.mem_order (hp : Paired t) {key : WaiterKey} (hkey : key ∈ t.waiters)
    (hindex : key.index = index) : key.term ∈ order := by
  obtain ⟨terms, hterms, hterm⟩ := (hp.pairs key.index key.term).mp hkey
  rw [hindex] at hterms
  rw [hterms] at horder
  exact List.mem_toFinset.mp (horder.2 ▸ hterm)

theorem Paired.lookup_fulfill (hp : Paired t) (key : WaiterKey) :
    (t.fulfill index term result order).waiters.lookup key =
      if key.index = index then none else t.waiters.lookup key := by
  refine ((answering_fulfillOne index term result).lookup_foldl order key).trans ?_
  by_cases hindex : key.index = index
  · rw [if_pos hindex]
    split
    · rfl
    · next hnot =>
      refine Finmap.lookup_eq_none.mpr fun hkey => hnot (List.mem_map.mpr ⟨key.term, ?_, ?_⟩)
      · exact hp.mem_order horder hkey hindex
      · rw [← hindex]
  · rw [if_neg hindex, if_neg]
    rintro hmem
    obtain ⟨registered, _, rfl⟩ := List.mem_map.mp hmem
    exact hindex rfl

/-- Every waiter at the index is answered, every other one waits on. -/
theorem Sound.outcomes_fulfill (h : Sound J t) (hp : Paired t) {key : WaiterKey}
    (hkey : t.waiters.lookup key = some id) :
    (t.fulfill index term result order).outcomes id =
      if key.index = index then [if key.term = term then .result result else .stale] else [] := by
  have hall : Sound (fun _ _ => True) t := h.mono fun _ _ _ => trivial
  split
  · next hindex =>
    subst hindex
    have hmem := hp.mem_order horder (Finmap.mem_iff.mpr ⟨id, hkey⟩) rfl
    exact (answering_fulfillOne key.index term result).outcomes_foldl_of_mem hall hmem hkey
  · next hindex =>
    refine ((answering_fulfillOne index term result).outcomes_foldl_of_not hall
      fun registered _ hregistered => ?_).trans (h.waiting key id hkey).2.1
    rw [h.id_eq hkey hregistered] at hindex
    exact hindex rfl

theorem Paired.fulfill (hp : Paired t) : Paired (t.fulfill index term result order) where
  pairs i u := by
    rw [Finmap.mem_iff, hp.lookup_fulfill horder, WaiterTable.fulfill, foldl_fulfillOne_byIndex,
      lookup_erase_eq]
    split
    · simp
    · exact (Finmap.mem_iff.symm).trans (hp.pairs i u)
  nonempty i terms hterms := by
    rw [WaiterTable.fulfill, foldl_fulfillOne_byIndex, lookup_erase_eq] at hterms
    split at hterms
    · cases hterms
    · exact hp.nonempty i terms hterms

end Fulfill

theorem Paired.failOne (h : Paired t) (key : WaiterKey) : Paired (t.failOne err key) := by
  rw [WaiterTable.failOne]
  split
  · exact h
  · exact (h.remove key.index key.term).deliver _ _

theorem Sound.failStop (h : Sound J t) (herr : ∀ key, J key (.err err)) (order : List WaiterKey) :
    Sound J (t.failStop err order) :=
  (answering_failOne err).sound_foldl h herr order

theorem Paired.failStop (h : Paired t) (order : List WaiterKey) : Paired (t.failStop err order) := by
  rw [WaiterTable.failStop]
  induction order generalizing t with
  | nil => exact h
  | cons key order ih => exact ih (h.failOne key)

theorem failStop_waiters {order : List WaiterKey} (horder : Enumerates order t.waiters.keys) :
    (t.failStop err order).waiters = ∅ := by
  refine Finmap.ext_lookup fun key => ?_
  rw [Finmap.lookup_empty, failStop, (answering_failOne err).lookup_foldl, List.map_id']
  split
  · rfl
  · next hnot =>
    rw [Finmap.lookup_eq_none, ← Finmap.mem_keys, ← horder.2, List.mem_toFinset]
    exact hnot

theorem Sound.outcomes_failStop (h : Sound J t) {order : List WaiterKey}
    (horder : Enumerates order t.waiters.keys) {key : WaiterKey}
    (hkey : t.waiters.lookup key = some id) : (t.failStop err order).outcomes id = [.err err] := by
  have hmem : key ∈ order := by
    rw [← List.mem_toFinset, horder.2, Finmap.mem_keys]
    exact Finmap.mem_iff.mpr ⟨id, hkey⟩
  exact (answering_failOne err).outcomes_foldl_of_mem (h.mono fun _ _ _ => trivial) hmem hkey

end Loops

end WaiterTable

/-! ### The applier of a process -/

def Outcome.told : Outcome → WaiterOutcome
  | .result r => .result r
  | .stale => .stale
  | .err _ => .err

namespace KVApplier

/-- The applier of a KV process has the waiters of the table. -/
structure Mirrors (a : KVApplier) (t : WaiterTable) : Prop where
  waiters : ∀ key id, ⟨key, id⟩ ∈ a.waiters ↔ t.waiters.lookup key = some id
  byIndex : ∀ index, a.byIndex index = (t.byIndex.lookup index).getD ∅

/-- The table has told its waiters what the applier delivers, and nothing else. -/
def Delivers (deliveries : Deliveries) (t t' : WaiterTable) : Prop :=
  ∀ id o, (id, o) ∈ deliveries ↔
    ∃ key, t.waiters.lookup key = some id ∧ (t'.outcomes id).map Outcome.told = [o]

variable {a : KVApplier} {t : WaiterTable} {J : WaiterKey → Outcome → Prop} {index term : Nat}

theorem Mirrors.empty (sm : MapStateMachine) : (new sm).Mirrors .empty where
  waiters key id := by simp [new, WaiterTable.empty]
  byIndex _ := rfl

theorem Mirrors.register (h : a.Mirrors t) (index term : Nat) :
    (a.register index term t.keys.length).Mirrors (t.register index term) where
  waiters key id := by
    rw [KVApplier.register, WaiterTable.register, lookup_insert_eq]
    by_cases hkey : key = ⟨index, term⟩
    · simp [hkey, eq_comm]
    · simp [hkey, h.waiters]
  byIndex i := by
    show Function.update a.byIndex index _ i = _
    rw [WaiterTable.register, lookup_insert_eq, Function.update_apply]
    split
    · rw [h.byIndex, Option.getD_some]
    · exact h.byIndex i

theorem Mirrors.cancel (h : a.Mirrors t) (index term : Nat) :
    (a.cancel index term).Mirrors (t.cancel index term) := by
  rw [KVApplier.cancel, WaiterTable.cancel]
  cases hkey : t.waiters.lookup ⟨index, term⟩ with
  | none =>
    rw [if_neg]
    · exact h
    · intro hany
      obtain ⟨⟨key, id⟩, hw, heq⟩ := List.any_eq_true.mp hany
      rw [(of_decide_eq_true heq : key = ⟨index, term⟩), h.waiters, hkey] at hw
      cases hw
  | some ch =>
    rw [if_pos (List.any_eq_true.mpr ⟨⟨⟨index, term⟩, ch⟩, (h.waiters _ _).mpr hkey, by simp⟩)]
    obtain ⟨m, hm⟩ := WaiterTable.removeFromIndex_eq { t with
      waiters := t.waiters.erase ⟨index, term⟩
      cancelled := ch :: t.cancelled } index term
    dsimp only
    refine ⟨fun key id => ?_, fun i => ?_⟩
    · rw [hm, lookup_erase_eq]
      by_cases heq : key = ⟨index, term⟩
      · simp [heq]
      · simp [heq, h.waiters]
    · show Function.update a.byIndex index _ i = _
      rw [WaiterTable.lookup_removeFromIndex, Function.update_apply, h.byIndex]
      split
      · cases t.byIndex.lookup index with
        | none => rfl
        | some terms =>
          by_cases hempty : terms.erase term = ∅
          · simp [hempty, Option.filter]
          · simp [hempty, Option.filter]
      · exact h.byIndex i

theorem Mirrors.resolves_iff (h : a.Mirrors t) (hp : t.Paired) {w : Waiter} (hw : w ∈ a.waiters) :
    a.resolves index w = true ↔ w.key.index = index := by
  have hmem : w.key ∈ t.waiters := Finmap.mem_iff.mpr ⟨_, (h.waiters w.key w.channel).mp hw⟩
  obtain ⟨terms, hterms, hterm⟩ := (hp.pairs w.key.index w.key.term).mp hmem
  rw [KVApplier.resolves, Bool.and_eq_true, decide_eq_true_eq, decide_eq_true_eq]
  refine ⟨fun hand => hand.1, fun hindex => ⟨hindex, ?_⟩⟩
  rw [← hindex, h.byIndex, hterms]
  exact hterm

/-- An Apply resolves the same waiters in the applier and in the table, in whatever order the
loop of the source ranges over its map. -/
theorem Mirrors.fulfill (h : a.Mirrors t) (hs : t.Sound J) (hp : t.Paired) {order : List Nat}
    (horder : Enumerates order ((t.byIndex.lookup index).getD ∅)) (result : Result) :
    (a.fulfill index term result).1.Mirrors (t.fulfill index term result order) ∧
      Delivers (a.fulfill index term result).2 t (t.fulfill index term result order) := by
  refine ⟨⟨fun key id => ?_, fun i => ?_⟩, fun id o => ?_⟩
  · rw [hp.lookup_fulfill horder]
    show _ ∈ a.waiters.filter _ ↔ _
    rw [List.mem_filter, h.waiters]
    by_cases hkey : t.waiters.lookup key = some id
    · have hresolves : a.resolves index ⟨key, id⟩ = true ↔ key.index = index :=
        h.resolves_iff hp ((h.waiters key id).mpr hkey)
      by_cases hindex : key.index = index
      · simp [hindex, hresolves.mpr hindex]
      · simp [hindex, hkey, Bool.eq_false_iff.mpr fun hr => hindex (hresolves.mp hr)]
    · simp [hkey]
  · show Function.update a.byIndex index ∅ i = _
    rw [WaiterTable.fulfill, WaiterTable.foldl_fulfillOne_byIndex, lookup_erase_eq,
      Function.update_apply]
    split
    · rfl
    · exact h.byIndex i
  · show _ ∈ (a.waiters.filter _).map _ ↔ _
    rw [List.mem_map]
    constructor
    · rintro ⟨⟨key, ch⟩, hw, heq⟩
      obtain ⟨hw, hresolves⟩ := List.mem_filter.mp hw
      obtain ⟨rfl, rfl⟩ := Prod.mk.inj heq
      have hkey := (h.waiters key ch).mp hw
      refine ⟨key, hkey, ?_⟩
      rw [hs.outcomes_fulfill horder hp hkey, if_pos ((h.resolves_iff hp hw).mp hresolves)]
      simp only [List.map_cons, List.map_nil]
      split <;> rfl
    · rintro ⟨key, hkey, htold⟩
      have hw := (h.waiters key id).mpr hkey
      rw [hs.outcomes_fulfill horder hp hkey] at htold
      split at htold
      · next hindex =>
        refine ⟨⟨key, id⟩, List.mem_filter.mpr ⟨hw, (h.resolves_iff hp hw).mpr hindex⟩, ?_⟩
        simp only [List.map_cons, List.map_nil, List.cons.injEq, and_true] at htold
        rw [← htold]
        simp only
        split <;> rfl
      · cases htold

theorem Mirrors.failStop (h : a.Mirrors t) (hs : t.Sound J) (hp : t.Paired)
    {order : List WaiterKey} (horder : Enumerates order t.waiters.keys) (err : HostError) :
    a.failStop.1.Mirrors (t.failStop err order) ∧
      Delivers a.failStop.2 t (t.failStop err order) := by
  have hempty : (t.failStop err order).waiters = ∅ := WaiterTable.failStop_waiters horder
  refine ⟨⟨fun key id => ?_, fun i => ?_⟩, fun id o => ?_⟩
  · rw [hempty, Finmap.lookup_empty]
    simp [KVApplier.failStop]
  · rw [(hp.failStop order).byIndex_eq hempty, Finmap.lookup_empty]
    refine Finset.filter_eq_empty_iff.mpr fun {u} hu hall => ?_
    rw [h.byIndex] at hu
    cases hterms : t.byIndex.lookup i with
    | none => simp [hterms] at hu
    | some terms =>
      rw [hterms] at hu
      obtain ⟨id, hid⟩ := Finmap.mem_iff.mp ((hp.pairs i u).mpr ⟨terms, hterms, hu⟩)
      have hne := List.all_eq_true.mp hall _ ((h.waiters _ _).mpr hid)
      simp at hne
  · show _ ∈ a.waiters.map _ ↔ _
    rw [List.mem_map]
    constructor
    · rintro ⟨⟨key, ch⟩, hw, heq⟩
      obtain ⟨rfl, rfl⟩ := Prod.mk.inj heq
      have hkey := (h.waiters key ch).mp hw
      refine ⟨key, hkey, ?_⟩
      rw [hs.outcomes_failStop horder hkey]
      rfl
    · rintro ⟨key, hkey, htold⟩
      rw [hs.outcomes_failStop horder hkey] at htold
      refine ⟨⟨key, id⟩, (h.waiters key id).mpr hkey, ?_⟩
      cases htold
      rfl

end KVApplier

end MiniQuorum.Server
