import MSP430.IL.Emit
import MSP430.Proofs.Checked.Arithmetic

/-!
# Checked emissions

The numbers of temporaries and labels have thirty-two bits.  A checked emission counts
under that check, and takes every other step under its own.  Where the supply has room
for what an emission takes at most, the checked one comes to the same.
-/

namespace MSP430
namespace IL

def CheckedEmit (value : Type) : Type :=
  Supply -> Checked (Emission value)

namespace CheckedEmit

protected def pure {value : Type} (result : value) : CheckedEmit value :=
  fun supply => .ok { result := result, code := [], supply := supply }

protected def bind {first second : Type} (emit : CheckedEmit first)
    (next : first -> CheckedEmit second) : CheckedEmit second :=
  fun supply => do
    let before <- emit supply
    let after <- next before.result before.supply
    return { after with code := before.code ++ after.code }

instance : Monad CheckedEmit where
  pure := CheckedEmit.pure
  bind := CheckedEmit.bind

/-- What is computed emits nothing. -/
protected def compute {value : Type} (checked : Checked value) : CheckedEmit value :=
  fun supply => do
    let result <- checked
    return { result := result, code := [], supply := supply }

instance : MonadLift Checked CheckedEmit where
  monadLift := CheckedEmit.compute

def ops (ops : List Op) : CheckedEmit Unit :=
  fun supply => .ok { result := (), code := ops, supply := supply }

def op (op : Op) : CheckedEmit Unit :=
  ops [op]

def newTemp : CheckedEmit Nat :=
  fun supply => do
    let next <- Unsigned.u32.add supply.temp 1
    return { result := supply.temp, code := [], supply := { supply with temp := next } }

def newLabel : CheckedEmit Label :=
  fun supply => do
    let next <- Unsigned.u32.add supply.label 1
    return { result := supply.label, code := [], supply := { supply with label := next } }

def save (width : Width) (value : Expr) : CheckedEmit Expr := do
  let index <- newTemp
  op (.setTemp width index value)
  return .temp width index

def snapshot (width : Width) (value : Expr) : CheckedEmit Expr :=
  if value.isPureLeaf then
    return value
  else
    save width value

def replicate : Nat -> CheckedEmit Unit -> CheckedEmit Unit
  | 0, _ => return ()
  | count + 1, emit => do
      emit
      replicate count emit

/-- The numbers of so many more temporaries and labels fit. -/
structure HasRoom (supply : Supply) (temps labels : Nat) : Prop where
  temp : supply.temp + temps < 2 ^ 32
  label : supply.label + labels < 2 ^ 32

/-- So many temporaries and labels at most lie between two supplies. -/
structure Takes (before after : Supply) (temps labels : Nat) : Prop where
  temp : after.temp ≤ before.temp + temps
  label : after.label ≤ before.label + labels

section Room

variable {before middle after : Supply} {temps labels moreTemps moreLabels : Nat}

theorem HasRoom.weaken (h : HasRoom before moreTemps moreLabels)
    (htemps : temps ≤ moreTemps) (hlabels : labels ≤ moreLabels) :
    HasRoom before temps labels where
  temp := Nat.lt_of_le_of_lt (Nat.add_le_add_left htemps _) h.temp
  label := Nat.lt_of_le_of_lt (Nat.add_le_add_left hlabels _) h.label

/-- What is not taken of the room is left. -/
theorem HasRoom.left (h : HasRoom before (temps + moreTemps) (labels + moreLabels))
    (htakes : Takes before middle temps labels) : HasRoom middle moreTemps moreLabels where
  temp := by
    apply Nat.lt_of_le_of_lt (Nat.add_le_add_right htakes.temp moreTemps)
    rw [Nat.add_assoc]
    exact h.temp
  label := by
    apply Nat.lt_of_le_of_lt (Nat.add_le_add_right htakes.label moreLabels)
    rw [Nat.add_assoc]
    exact h.label

theorem Takes.refl (supply : Supply) : Takes supply supply 0 0 where
  temp := Nat.le_refl _
  label := Nat.le_refl _

theorem Takes.weaken (h : Takes before after temps labels)
    (htemps : temps ≤ moreTemps) (hlabels : labels ≤ moreLabels) :
    Takes before after moreTemps moreLabels where
  temp := Nat.le_trans h.temp (Nat.add_le_add_left htemps _)
  label := Nat.le_trans h.label (Nat.add_le_add_left hlabels _)

theorem Takes.trans (h : Takes before middle temps labels)
    (hmore : Takes middle after moreTemps moreLabels) :
    Takes before after (temps + moreTemps) (labels + moreLabels) where
  temp := by
    rw [← Nat.add_assoc]
    exact Nat.le_trans hmore.temp (Nat.add_le_add_right h.temp moreTemps)
  label := by
    rw [← Nat.add_assoc]
    exact Nat.le_trans hmore.label (Nat.add_le_add_right h.label moreLabels)

end Room

/-- The emission takes so many temporaries and labels at most, and comes to the same with
all its checks, as long as the supply has room for them. -/
structure Agrees {value : Type} (checked : CheckedEmit value) (emit : Emit value)
    (temps labels : Nat) : Prop where
  checks : forall supply : Supply, HasRoom supply temps labels ->
    checked supply = .ok (emit supply)
  takes : forall supply, Takes supply (emit supply).supply temps labels

namespace Agrees

variable {first second : Type} {temps labels moreTemps moreLabels : Nat}

theorem weaken {checked : CheckedEmit first} {emit : Emit first}
    (h : Agrees checked emit temps labels) (htemps : temps ≤ moreTemps)
    (hlabels : labels ≤ moreLabels) : Agrees checked emit moreTemps moreLabels where
  checks := fun supply hroom => h.checks supply (hroom.weaken htemps hlabels)
  takes := fun supply => (h.takes supply).weaken htemps hlabels

theorem pure (result : first) : Agrees (Pure.pure result) (Pure.pure result) 0 0 where
  checks := fun _ _ => rfl
  takes := .refl

/-- What the first emission leaves of the room is enough for the second. -/
theorem bind {checked : CheckedEmit first} {emit : Emit first}
    {checkedNext : first -> CheckedEmit second} {next : first -> Emit second}
    (h : Agrees checked emit temps labels)
    (hnext : forall result, Agrees (checkedNext result) (next result) moreTemps moreLabels) :
    Agrees (checked >>= checkedNext) (emit >>= next) (temps + moreTemps)
      (labels + moreLabels) where
  checks := by
    intro supply hroom
    have hfirst := h.checks supply
      (hroom.weaken (Nat.le_add_right _ _) (Nat.le_add_right _ _))
    have hsecond := (hnext (emit supply).result).checks (emit supply).supply
      (hroom.left (h.takes supply))
    show CheckedEmit.bind checked checkedNext supply = _
    unfold CheckedEmit.bind
    rw [hfirst, Checked.ok_bind, hsecond, Checked.ok_bind]
    rfl
  takes := fun supply => (h.takes supply).trans ((hnext _).takes (emit supply).supply)

theorem computed {checked : Checked first} {result : first} (h : checked = .ok result) :
    Agrees (CheckedEmit.compute checked) (Pure.pure result) 0 0 where
  checks := by
    intro supply _
    subst h
    rfl
  takes := .refl

/-- What is computed before an emission passes its checks. -/
theorem compute {checked : Checked first} {result : first}
    {checkedNext : first -> CheckedEmit second} {emit : Emit second}
    (h : checked = .ok result) (hnext : Agrees (checkedNext result) emit temps labels) :
    Agrees (liftM checked >>= checkedNext) emit temps labels := by
  have hsame : (liftM checked >>= checkedNext) = checkedNext result := by
    subst h
    funext supply
    show (checkedNext result supply >>= fun after => _) = checkedNext result supply
    cases checkedNext result supply with
    | error fault => rfl
    | ok after => rfl
  rw [hsame]
  exact hnext

theorem ops (code : List Op) : Agrees (CheckedEmit.ops code) (Emit.ops code) 0 0 where
  checks := fun _ _ => rfl
  takes := .refl

theorem op (operation : Op) : Agrees (CheckedEmit.op operation) (Emit.op operation) 0 0 :=
  ops [operation]

theorem ite {condition : Prop} [Decidable condition] {checked other : CheckedEmit first}
    {emit otherEmit : Emit first} (hthen : Agrees checked emit temps labels)
    (helse : Agrees other otherEmit temps labels) :
    Agrees (if condition then checked else other) (if condition then emit else otherEmit)
      temps labels := by
  by_cases h : condition
  · rw [if_pos h, if_pos h]
    exact hthen
  · rw [if_neg h, if_neg h]
    exact helse

theorem newTemp : Agrees CheckedEmit.newTemp Emit.newTemp 1 0 where
  checks := by
    intro supply hroom
    unfold CheckedEmit.newTemp
    rw [Unsigned.add_of_lt hroom.temp]
    rfl
  takes := fun _ => ⟨Nat.le_refl _, Nat.le_refl _⟩

theorem newLabel : Agrees CheckedEmit.newLabel Emit.newLabel 0 1 where
  checks := by
    intro supply hroom
    unfold CheckedEmit.newLabel
    rw [Unsigned.add_of_lt hroom.label]
    rfl
  takes := fun _ => ⟨Nat.le_refl _, Nat.le_refl _⟩

theorem save (width : Width) (value : Expr) :
    Agrees (CheckedEmit.save width value) (Emit.save width value) 1 0 :=
  newTemp.bind fun _ => (op _).bind fun _ => pure _

theorem snapshot (width : Width) (value : Expr) :
    Agrees (CheckedEmit.snapshot width value) (Emit.snapshot width value) 1 0 := by
  have hleaf := (pure value).weaken (Nat.zero_le 1) (Nat.le_refl 0)
  exact hleaf.ite (save width value)

theorem replicate {checked : CheckedEmit Unit} {emit : Emit Unit}
    (h : Agrees checked emit temps 0) (count : Nat) :
    Agrees (CheckedEmit.replicate count checked) (Emit.replicate count emit)
      (count * temps) 0 := by
  induction count with
  | zero => exact (pure ()).weaken (Nat.zero_le _) (Nat.le_refl 0)
  | succ count ih =>
      have htemps : temps + count * temps ≤ (count + 1) * temps := by
        rw [Nat.succ_mul, Nat.add_comm]
      exact (h.bind fun _ => ih).weaken htemps (Nat.le_refl 0)

end Agrees
end CheckedEmit
end IL
end MSP430
