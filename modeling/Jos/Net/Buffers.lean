import Jos.Net.Server
import Mathlib.Data.Fintype.Card

/-! The request buffers of the network server are conserved. -/

namespace Jos.Net

open Kern User Lib

theorem bufferVa_index (i : Fin queueSize) : ((bufferVa i - reqva) / pgsize).toNat = i := by
  revert i
  decide

theorem bufferVa_inj {i j : Fin queueSize} (h : bufferVa i = bufferVa j) : i = j := by
  have hi := bufferVa_index i
  rw [h, bufferVa_index j] at hi
  exact Fin.ext hi.symm

theorem putBuffer_bufferVa (buse : Buse) (i : Fin queueSize) :
    putBuffer buse (bufferVa i) = Function.update buse i false := by
  funext j
  rw [putBuffer, bufferVa_index]
  by_cases hj : j = i
  · rw [hj, if_pos rfl, Function.update_self]
  · rw [if_neg fun h => hj (Fin.ext h), Function.update_of_ne hj]

structure Owned (buse : Buse) (owners : List Word) : Prop where
  isBuffer : ∀ va ∈ owners, ∃ i : Fin queueSize, va = bufferVa i
  nodup : owners.Nodup
  flags : ∀ i : Fin queueSize, buse i = true ↔ bufferVa i ∈ owners

namespace Owned

variable {buse buse' : Buse} {owners owners' : List Word} {va : Word}

theorem nil : Owned (fun _ => false) [] where
  isBuffer _ h := absurd h List.not_mem_nil
  nodup := List.nodup_nil
  flags _ := ⟨fun h => absurd h Bool.false_ne_true, fun h => absurd h List.not_mem_nil⟩

theorem perm (h : Owned buse owners) (hp : owners.Perm owners') : Owned buse owners' where
  isBuffer va hva := h.isBuffer va (hp.mem_iff.mpr hva)
  nodup := hp.nodup_iff.mp h.nodup
  flags i := (h.flags i).trans hp.mem_iff

theorem take (h : Owned buse owners) (hget : getBuffer buse = some (va, buse')) :
    Owned buse' (va :: owners) := by
  obtain ⟨i, hi, heq⟩ := Option.map_eq_some_iff.mp hget
  cases heq
  have hfree := List.find?_some hi
  rw [Bool.not_eq_true'] at hfree
  refine ⟨fun va hva => ?_, ?_, fun j => ?_⟩
  · rcases List.mem_cons.mp hva with rfl | hva
    · exact ⟨i, rfl⟩
    · exact h.isBuffer va hva
  · refine List.nodup_cons.mpr ⟨fun hmem => ?_, h.nodup⟩
    rw [(h.flags i).mpr hmem] at hfree
    cases hfree
  · by_cases hj : j = i
    · subst hj
      rw [Function.update_self]
      exact ⟨fun _ => List.mem_cons_self, fun _ => rfl⟩
    · rw [Function.update_of_ne hj, h.flags j, List.mem_cons]
      exact ⟨.inr, fun hor => hor.resolve_left fun heq => hj (bufferVa_inj heq)⟩

theorem drop (h : Owned buse (va :: owners)) : Owned (putBuffer buse va) owners := by
  obtain ⟨i, rfl⟩ := h.isBuffer va List.mem_cons_self
  obtain ⟨hnot, hnodup⟩ := List.nodup_cons.mp h.nodup
  refine ⟨fun va hva => h.isBuffer va (List.mem_cons_of_mem _ hva), hnodup, fun j => ?_⟩
  rw [putBuffer_bufferVa]
  by_cases hj : j = i
  · subst hj
    rw [Function.update_self]
    exact ⟨fun hf => absurd hf Bool.false_ne_true, fun hmem => absurd hmem hnot⟩
  · rw [Function.update_of_ne hj, h.flags j, List.mem_cons]
    exact ⟨fun hor => hor.resolve_left fun heq => hj (bufferVa_inj heq), .inr⟩

theorem card (h : Owned buse owners) :
    (Finset.univ.filter fun i => buse i = true).card = owners.length := by
  have himage : (Finset.univ.filter fun i => buse i = true).image (fun i => bufferVa i.val) = owners.toFinset := by
    ext va
    rw [Finset.mem_image, List.mem_toFinset]
    constructor
    · rintro ⟨i, hi, rfl⟩
      exact (h.flags i).mp (Finset.mem_filter.mp hi).2
    · intro hva
      obtain ⟨i, rfl⟩ := h.isBuffer va hva
      exact ⟨i, Finset.mem_filter.mpr ⟨Finset.mem_univ i, (h.flags i).mpr hva⟩, rfl⟩
  have hinj := Finset.card_image_of_injective (Finset.univ.filter fun i => buse i = true)
    (fun i j hij => bufferVa_inj hij : Function.Injective fun i : Fin queueSize => bufferVa i.val)
  rw [← hinj, himage, List.toFinset_card_of_nodup h.nodup]

theorem full (h : Owned buse owners) (hget : getBuffer buse = none) : owners.length = queueSize := by
  rw [getBuffer, Option.map_eq_none_iff, List.find?_eq_none] at hget
  rw [← h.card, Finset.filter_true_of_mem fun i _ => ?_, Finset.card_univ, Fintype.card_fin]
  have := hget i (List.mem_finRange i)
  rwa [Bool.not_eq_true', Bool.not_eq_false] at this

end Owned

def Server.owners (s : Server) : List Word := s.phase.buffers ++ s.workers.map fun w => w.st.req

/-- Whether a call of `malloc` for the main thread does not come back empty-handed. -/
def Granted (avail : Nat) (h : Heap) (n : Word) : Prop := ∀ r, malloc avail h n = some r → r.1 ≠ 0

namespace ServerEvent

/-- A message is from the timer or has its argument page, and its thread can be made. -/
def Served (s : Server) : ServerEvent → Prop
  | .message m =>
    m.reqno = nsreqTimer ∨ ((m.page.map Prod.fst).getD s.ipcPerm) &&& pteP ≠ 0
  | .proceed avail =>
    match s.phase with
    | .creating _ _ => Granted avail s.heap threadContextSize
    | .stacking _ _ _ => Granted avail s.heap stackSize
    | _ => True
  | _ => True

end ServerEvent

section

variable {s s' : Server} {e : ServerEvent}

theorem deliver_frame (s : Server) (va : Word) (m : Message) :
    (s.deliver va m).buse = s.buse ∧ (s.deliver va m).workers = s.workers ∧
      (s.deliver va m).ipcPerm = (m.page.map Prod.fst).getD s.ipcPerm := by
  rw [Server.deliver]
  cases m.page with
  | none => exact ⟨rfl, rfl, rfl⟩
  | some page => exact ⟨rfl, rfl, rfl⟩

theorem owned_receive {va : Word} {m : Message} (h : Owned s.buse (va :: s.workers.map fun w => w.st.req))
    (hm : m.reqno = nsreqTimer ∨ ((m.page.map Prod.fst).getD s.ipcPerm) &&& pteP ≠ 0) :
    Owned (s.receive va m).buse (s.receive va m).owners := by
  obtain ⟨hbuse, hworkers, hperm⟩ := deliver_frame s va m
  rw [← hbuse, ← hworkers] at h
  rw [← hperm] at hm
  rw [Server.receive]
  split
  · split
    · exact h
    · exact h.drop
  · next hne =>
    rw [if_neg (hm.resolve_left hne)]
    exact h

theorem owned_proceed {avail : Nat} (h : Owned s.buse s.owners)
    (hs : (ServerEvent.proceed avail).Served s) (hst : s.proceed avail = some s') :
    Owned s'.buse s'.owners := by
  rw [Server.proceed] at hst
  rw [ServerEvent.Served] at hs
  rw [Server.owners] at h
  cases hp : s.phase with
  | top | receiving | timing =>
    rw [hp] at hst
    cases hst
  | serving st =>
    rw [hp] at hst h
    obtain ⟨⟨v, h'⟩, -, hst⟩ := Option.bind_eq_some_iff.mp hst
    dsimp only at hst
    split at hst
    · cases hst
    · cases hst
      exact h
  | creating args st =>
    rw [hp] at hst hs h
    obtain ⟨⟨v, h'⟩, hres, hst⟩ := Option.bind_eq_some_iff.mp hst
    dsimp only at hst
    rw [if_neg (hs _ hres)] at hst
    split at hst
    · cases hst
    · cases hst
      exact h
  | stacking args st tc =>
    rw [hp] at hst hs h
    obtain ⟨⟨v, h'⟩, hres, hst⟩ := Option.bind_eq_some_iff.mp hst
    dsimp only at hst
    rw [if_neg (hs _ hres)] at hst
    cases hst
    exact h

theorem owned_finish {w : Worker} (h : Owned s.buse s.owners) (hw : w ∈ s.workers)
    (hst : s.finish w = some s') : Owned s'.buse s'.owners := by
  obtain ⟨sp, -, hst⟩ := Option.bind_eq_some_iff.mp hst
  obtain ⟨sp', -, hst⟩ := Option.bind_eq_some_iff.mp hst
  cases hst
  refine Owned.drop (h.perm ?_)
  have hworkers := (List.perm_cons_erase hw).map fun w => w.st.req
  exact (hworkers.append_left s.phase.buffers).trans List.perm_middle

theorem owned_step (h : Owned s.buse s.owners) (hs : e.Served s) (hst : serverStep s e = some s') :
    Owned s'.buse s'.owners := by
  rw [serverStep.eq_def] at hst
  cases e with
  | listen =>
    dsimp only at hst
    split at hst
    · next hp =>
      obtain ⟨⟨va, buse⟩, hget, rfl⟩ := Option.map_eq_some_iff.mp hst
      rw [Server.owners, hp] at h
      exact h.take hget
    · cases hst
  | message m =>
    dsimp only at hst
    split at hst
    · next va hp =>
      cases hst
      rw [Server.owners, hp] at h
      exact owned_receive h hs
    · cases hst
  | timed =>
    dsimp only at hst
    split at hst
    · next va hp =>
      cases hst
      rw [Server.owners, hp] at h
      exact h.drop
    · cases hst
  | proceed avail => exact owned_proceed h hs hst
  | finish w =>
    dsimp only at hst
    split at hst
    · next hc => exact owned_finish h hc.2 hst
    · cases hst
  | malloc avail n =>
    dsimp only at hst
    split at hst
    · obtain ⟨r, -, rfl⟩ := Option.map_eq_some_iff.mp hst
      exact h
    · cases hst
  | free b =>
    dsimp only at hst
    split at hst
    · obtain ⟨sp, -, rfl⟩ := Option.map_eq_some_iff.mp hst
      exact h
    · cases hst
  | write va x =>
    dsimp only at hst
    split at hst
    · obtain ⟨sp, -, rfl⟩ := Option.map_eq_some_iff.mp hst
      exact h
    · cases hst

/-- While every message is the timer's or has a page, and every thread can be made, the buffers
taken are one for each request whose thread has not ended, and one for the message at hand. -/
theorem buffers_conserved {sp : Space} {timer : Word} {es : List ServerEvent}
    (h : Run serverStep (fun s e => e.Served s) (serverStart sp timer) es s) :
    (Finset.univ.filter fun i => s.buse i = true).card = s.workers.length + s.phase.buffers.length ∧
      s.phase.buffers.length ≤ 1 ∧
      (s.phase = .top → getBuffer s.buse = none → s.workers.length = queueSize) := by
  have hown : Owned s.buse s.owners :=
    h.invariant (fun s => Owned s.buse s.owners) (fun hI hg hst => owned_step hI hg hst) .nil
  have hlen : s.owners.length = s.workers.length + s.phase.buffers.length := by
    rw [Server.owners, List.length_append, List.length_map, Nat.add_comm]
  refine ⟨hown.card.trans hlen, ?_, fun htop hget => ?_⟩
  · cases s.phase with
    | top => exact Nat.zero_le 1
    | _ => exact Nat.le_refl 1
  · have hfull := hown.full hget
    rw [hlen, htop] at hfull
    exact hfull

end

instance (avail : Nat) (h : Heap) (n : Word) : Decidable (Granted avail h n) :=
  match hres : malloc avail h n with
  | none => isTrue fun r hr => by rw [hres] at hr; cases hr
  | some r =>
    if hv : r.1 = 0 then isFalse fun hg => hg r hres hv
    else isTrue fun r' hr => by rw [hres] at hr; cases hr; exact hv

instance (s : Server) : ∀ e : ServerEvent, Decidable (e.Served s)
  | .message _ => inferInstanceAs (Decidable (_ ∨ _))
  | .proceed avail =>
    match hp : s.phase with
    | .creating _ _ => decidable_of_iff (Granted avail s.heap threadContextSize) (by rw [ServerEvent.Served, hp])
    | .stacking _ _ _ => decidable_of_iff (Granted avail s.heap stackSize) (by rw [ServerEvent.Served, hp])
    | .top | .receiving _ | .timing _ | .serving _ => isTrue (by rw [ServerEvent.Served, hp]; trivial)
  | .listen | .timed | .finish _ | .malloc _ _ | .free _ | .write _ _ => isTrue trivial

def bindRequest (page : Option (Word × (Nat → Byte))) : Message := ⟨2, 0x1003, page⟩

theorem buffers_conserved_bind : ∃ s, Run serverStep (fun s e => e.Served s) (serverStart bareSpace 0x1001)
    [.listen, .message (bindRequest (some (7, fun _ => 0))), .proceed 5, .proceed 4, .proceed 3,
      .listen, .message ⟨nsreqTimer, 0x1001, none⟩] s ∧
    s.workers = [⟨0x08000000, ⟨2, 0x1003, bufferVa 0⟩, 0x0800000c, 0x08001000⟩] ∧
    (Finset.univ.filter fun i => s.buse i = true).card = s.workers.length + s.phase.buffers.length := by
  have hrun : ∃ s, Run serverStep (fun s e => e.Served s) (serverStart bareSpace 0x1001)
      [.listen, .message (bindRequest (some (7, fun _ => 0))), .proceed 5, .proceed 4, .proceed 3,
        .listen, .message ⟨nsreqTimer, 0x1001, none⟩] s ∧
      s.workers = [⟨0x08000000, ⟨2, 0x1003, bufferVa 0⟩, 0x0800000c, 0x08001000⟩] := by
    apply Run.exists_ofFoldlM
    decide +kernel
  obtain ⟨s, hrun, hw⟩ := hrun
  exact ⟨s, hrun, hw, (buffers_conserved hrun).1⟩

/-- Twenty messages without a page leave the server with no buffer and no request. -/
theorem buffers_exhausted : ∃ s, Run serverStep (fun _ _ => True) (serverStart bareSpace 0x1001)
    (List.replicate 20 [.listen, .message (bindRequest none)]).flatten s ∧
    (s.workers = [] ∧ s.phase.buffers = [] ∧ getBuffer s.buse = none ∧ serverStep s .listen = none) := by
  apply Run.exists_ofFoldlM
  decide +kernel

end Jos.Net
