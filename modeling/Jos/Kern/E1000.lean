import Jos.Kern.UserMem

/-! `kern/e1000.c`: handing packets to and taking them from the network card. -/

namespace Jos.Kern

def ntxdesc : Nat := 64
def txbuffsize : Word := 2048
def nrxdesc : Nat := 128
def rxbuffsize : Word := 2048
def txdStatDD : Byte := 1
def rxdStatDD : Byte := 1

def txpacket (k : Kernel) (c : Cpu) (src length : Word) : Kernel × Ret :=
  let tail := k.e1000.tdt.toNat
  let next := k.e1000.txqueue tail
  if next.status &&& txdStatDD = 0 then (k, .ret (-1))
  else
    let length := if txbuffsize < length then txbuffsize else length
    let (bs, fault) := copyIn k.toPhys (k.cpus c).cr3 length.toNat src
    let buf := fun i => if i < bs.length then bs.getD i 0 else k.e1000.txbuffer tail i
    let e1000 := { k.e1000 with txbuffer := Function.update k.e1000.txbuffer tail buf }
    if fault then ({ k with e1000 := e1000 }, .fault)
    else
      let next := { length := length.setWidth 16, cmd := 9, status := next.status &&& ~~~txdStatDD }
      ({ k with e1000 := { e1000 with
          txqueue := Function.update e1000.txqueue tail next
          tdt := BitVec.ofNat 32 ((tail + 1) % ntxdesc) } }, .ret 0)

def rxbytes (d : E1000) (i n : Nat) : List Byte :=
  (List.range n).map fun o => d.rxbuffer (i + o / 2048) (o % 2048)

def rxpacket (k : Kernel) (c : Cpu) (dst : Word) : Kernel × Ret :=
  let tail := (k.e1000.rdt + 1).toNat % nrxdesc
  let next := k.e1000.rxqueue tail
  if next.status &&& rxdStatDD = 0 then (k, .ret 0)
  else
    let (m, fault) := copyOut (k.cpus c).cr3 k.toPhys (rxbytes k.e1000 tail next.length.toNat) dst
    let k := { k with toPhys := m }
    if fault then (k, .fault)
    else
      let done := { next with status := next.status &&& ~~~rxdStatDD }
      ({ k with e1000 := { k.e1000 with
          rxqueue := Function.update k.e1000.rxqueue tail done
          rdt := BitVec.ofNat 32 tail } }, .ret (next.length.setWidth 32))

end Jos.Kern
