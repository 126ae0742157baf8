import Mathlib.Data.Finmap

/-! Looking a key up in a finite map after one change. -/

namespace MiniQuorum.Collections

variable {K V : Type} [DecidableEq K] (m : Finmap fun _ : K => V)

theorem lookup_insert_eq (key : K) (value : V) (key' : K) :
    (m.insert key value).lookup key' = if key' = key then some value else m.lookup key' := by
  split
  · next hkey => rw [hkey, Finmap.lookup_insert]
  · next hkey => rw [Finmap.lookup_insert_of_ne _ hkey]

theorem lookup_erase_eq (key key' : K) :
    (m.erase key).lookup key' = if key' = key then none else m.lookup key' := by
  split
  · next hkey => rw [hkey, Finmap.lookup_erase]
  · next hkey => rw [Finmap.lookup_erase_ne hkey]

end MiniQuorum.Collections
