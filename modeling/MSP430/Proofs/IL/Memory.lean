import MSP430.Proofs.IL.Value

/-!
# Loads behind stores

A value that was stored is loaded again from where it lies, and everything that lies
apart from it is as it was.
-/

namespace MSP430
namespace IL
namespace State

theorem load_congr {first second : State} (width : Width) (address : Nat)
    (h : forall a, address ≤ a -> a < address + bytes width ->
      first.memory a = second.memory a) :
    first.load width address = second.load width address :=
  congrArg width.truncate (loadBytes_congr (bytes width) address h)

theorem store_memory_of_apart (state : State) {width : Width} {address value a : Nat}
    (h : a < address ∨ address + bytes width ≤ a) :
    (state.store width address value).memory a = state.memory a := by
  rcases h with h | h
  · exact storeBytes_of_lt _ _ _ _ h
  · exact storeBytes_of_ge _ _ _ _ h

theorem modulus_le_bytes (width : Width) : width.modulus ≤ 1 <<< (8 * bytes width) := by
  cases width <;> decide

theorem load_store_self (state : State) (width : Width) (address value : Nat) :
    (state.store width address value).load width address = width.truncate value := by
  have hlt := Nat.lt_of_lt_of_le (width.truncate_lt value) (modulus_le_bytes width)
  unfold load store
  rw [loadBytes_storeBytes, Nat.mod_eq_of_lt hlt, Width.truncate_truncate]

theorem load_store_of_apart (state : State) {width stored : Width}
    {address place value : Nat}
    (h : address + bytes width ≤ place ∨ place + bytes stored ≤ address) :
    (state.store stored place value).load width address =
      state.load width address := by
  apply load_congr
  intro a hlow hhigh
  apply store_memory_of_apart
  rcases h with h | h
  · exact .inl (Nat.lt_of_lt_of_le hhigh h)
  · exact .inr (Nat.le_trans h hlow)

end State
end IL
end MSP430
