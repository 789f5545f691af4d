import Jos.Kern.Boot
import Jos.Kern.Discipline
import Jos.Lib.Ring
import Jos.Lib.Run

/-! The network card with the registers that the device moves, as `e1000_init` sets it up. -/

namespace Jos.Kern

/-- The card with its head registers, which only the device moves once it is set up. -/
structure Nic extends E1000 where
  tdh : Nat
  rdh : Nat

def txdescInit (d : Nic) : Nic :=
  { d with txqueue := fun _ => ⟨0, 0, txdStatDD⟩, txbuffer := fun _ _ => 0 }

def txInit (d : Nic) : Nic := { d with tdh := 0, tdt := 0 }

def rxdescInit (d : Nic) : Nic :=
  { d with rxqueue := fun _ => ⟨0, 0⟩, rxbuffer := fun _ _ => 0 }

def rxInit (d : Nic) : Nic := { d with rdh := 0, rdt := BitVec.ofNat 32 (nrxdesc - 1) }

def e1000Init (d : Nic) : Nic := rxInit (rxdescInit (txInit (txdescInit d)))

theorem map_range_getD (bs : List Byte) (f : Nat → Byte) :
    ((List.range bs.length).map fun i => if i < bs.length then bs.getD i 0 else f i) = bs := by
  apply List.ext_getElem?
  intro i
  rw [List.getElem?_map]
  by_cases hi : i < bs.length
  · rw [List.getElem?_range hi, List.getElem?_eq_getElem hi, Option.map_some, if_pos hi,
      List.getD_eq_getElem _ _ hi]
  · rw [List.getElem?_eq_none (Nat.le_of_not_lt hi), List.getElem?_eq_none (by
      rw [List.length_range]
      omega)]
    rfl

end Jos.Kern
