import Jos.Fs.Serv
import Jos.Lib.Run

/-! The table of open files over whole runs of the server. -/

namespace Jos.Fs

open Kern Lib

variable {s t u : Serv} {i j : Fin maxopen}

/-- Only the files and the contents of the `Fd` pages differ. -/
structure SameTable (s t : Serv) : Prop where
  fileid : ∀ i, (t.opentab i).oFileid = (s.opentab i).oFileid
  fdPage : t.fdPage = s.fdPage
  nextPage : t.nextPage = s.nextPage
  opens : t.opens = s.opens
  maps : t.maps = s.maps

namespace SameTable

theorem refl : SameTable s s := ⟨fun _ => rfl, rfl, rfl, rfl, rfl⟩

theorem trans (h : SameTable s t) (h' : SameTable t u) : SameTable s u where
  fileid i := (h'.fileid i).trans (h.fileid i)
  fdPage := h'.fdPage.trans h.fdPage
  nextPage := h'.nextPage.trans h.nextPage
  opens := h'.opens.trans h.opens
  maps := h'.maps.trans h.maps

theorem setFd {g : Fd → Fd} : SameTable s (s.setFd i g) := by
  rw [Serv.setFd]
  split
  · exact refl
  · exact ⟨fun _ => rfl, rfl, rfl, rfl, rfl⟩

theorem setEntry {g : OpenFile → OpenFile} (hg : ∀ o, (g o).oFileid = o.oFileid) :
    SameTable s (s.setEntry i g) where
  fileid j := by
    by_cases hj : j = i
    · subst hj
      simp [Serv.setEntry, hg]
    · simp [Serv.setEntry, hj]
  fdPage := rfl
  nextPage := rfl
  opens := rfl
  maps := rfl

end SameTable

theorem run_fsCall {α : Type} {m : Act α} :
    (fsCall m).run s = (m.run s.cache).map fun x => (x.1, { s with cache := x.2 }) := rfl

theorem fsCall_wp {α : Type} {D : Prop} {m : Act α} {Q : α → Serv → Prop}
    (h : Wp D m s.cache fun a c => Q a { s with cache := c }) : Wp D (fsCall m) s Q := by
  rw [Wp] at h ⊢
  rw [run_fsCall]
  cases hm : m.run s.cache with
  | none =>
    rw [hm] at h
    exact h
  | some r =>
    rw [hm] at h
    exact h

def Keeps {α : Type} (m : Srv α) : Prop := ∀ s, Wp True m s fun _ t => SameTable s t

namespace Keeps

variable {α β : Type}

theorem pure {a : α} : Keeps (pure a) := fun _ => .refl

theorem failure : Keeps (failure : Srv α) := fun _ => trivial

theorem bind {m : Srv α} {f : α → Srv β} (h : Keeps m) (h' : ∀ a, Keeps (f a)) :
    Keeps (m >>= f) := fun s =>
  .bind ((h s).mono fun a t ht => (h' a t).mono fun _ _ hu => ht.trans hu)

theorem get : Keeps (get : Srv Serv) := fun _ => .refl

theorem fsCall {m : Act α} : Keeps (fsCall m) := fun s => fsCall_wp (by
  rw [Wp]
  split
  · trivial
  · exact ⟨fun _ => rfl, rfl, rfl, rfl, rfl⟩)

theorem advance {o : Fin maxopen} {n : Word} : Keeps (advance o n) := fun _ => .setFd

section Handlers

variable {envid : EnvIx} {page : Lib.Image} {req : Word}

theorem serveSetSize : Keeps (serveSetSize envid page) := by
  refine get.bind fun s => ?_
  cases s.openfileLookup envid (page.word 0) with
  | none => exact pure
  | some o => exact fsCall.bind fun _ => pure

theorem serveRead : Keeps (serveRead envid page) := by
  refine get.bind fun s => ?_
  cases s.openfileLookup envid (page.word 0) with
  | none => exact pure
  | some o =>
    cases hp : s.fdPage o with
    | none =>
      simp only [hp]
      exact failure
    | some p =>
      simp only [hp]
      refine fsCall.bind fun r => ?_
      cases r with
      | error r => exact pure
      | ok x =>
        dsimp only
        split
        · exact pure
        · exact advance.bind fun _ => pure

theorem serveWrite : Keeps (serveWrite envid page) := by
  refine get.bind fun s => ?_
  cases s.openfileLookup envid (page.word 0) with
  | none => exact pure
  | some o =>
    cases hp : s.fdPage o with
    | none =>
      simp only [hp]
      exact failure
    | some p =>
      simp only [hp]
      refine fsCall.bind fun _ => get.bind fun t => fsCall.bind fun r => ?_
      cases r with
      | error r => exact pure
      | ok n =>
        dsimp only
        split
        · exact pure
        · exact advance.bind fun _ => pure

theorem serveStat : Keeps (serveStat envid page) := by
  refine get.bind fun s => ?_
  cases s.openfileLookup envid (page.word 0) with
  | none => exact pure
  | some o => exact fsCall.bind fun _ => fsCall.bind fun _ => fsCall.bind fun _ => pure

theorem serveFlush : Keeps (serveFlush envid page) := by
  refine get.bind fun s => ?_
  cases s.openfileLookup envid (page.word 0) with
  | none => exact pure
  | some o => exact fsCall.bind fun _ => pure

theorem serveSync : Keeps (serveSync page) := fsCall.bind fun _ => pure

theorem handlers : Keeps (handlers envid page req) := by
  rw [Fs.handlers]
  split
  · exact serveSetSize
  split
  · exact serveRead
  split
  · exact serveWrite
  split
  · exact serveStat
  split
  · exact serveFlush
  split
  · exact serveSync
  · exact pure

end Handlers

end Keeps

section Alloc

def Serv.First (s : Serv) (i : Fin maxopen) : Prop := s.pageref i ≤ 1 ∧ ∀ j < i, 1 < s.pageref j

/-- Entry `i` can be used once more: its file id stays positive, there is memory for its page,
and the count of its page has not come round. -/
structure Serv.Fit (s : Serv) (i : Fin maxopen) : Prop where
  fileid : (s.opentab i).oFileid.toNat + maxopen < 2 ^ 31
  memory : s.fdPage i = none → s.cache.pages ≠ 0
  count : ∀ p, s.fdPage i = some p → s.clients p + 1 < 65536

structure Renewed (i : Fin maxopen) (s t : Serv) : Prop where
  fileid : (t.opentab i).oFileid = (s.opentab i).oFileid + BitVec.ofNat 32 maxopen
  others : ∀ j ≠ i, (t.opentab j).oFileid = (s.opentab j).oFileid
  page : (t.fdPage = s.fdPage ∧ t.nextPage = s.nextPage) ∨
    (t.fdPage = Function.update s.fdPage i (some s.nextPage) ∧ t.nextPage = s.nextPage + 1)
  mapped : (t.fdPage i).isSome
  opens : t.opens = s.opens
  maps : t.maps = s.maps

theorem Renewed.same (h : Renewed i s t) (h' : SameTable t u) : Renewed i s u where
  fileid := (h'.fileid i).trans h.fileid
  others j hj := (h'.fileid j).trans (h.others j hj)
  page := by
    rw [h'.fdPage, h'.nextPage]
    exact h.page
  mapped := by
    rw [h'.fdPage]
    exact h.mapped
  opens := h'.opens.trans h.opens
  maps := h'.maps.trans h.maps

theorem sameTable_renew :
    SameTable (s.setEntry i fun o => { o with oFileid := o.oFileid + BitVec.ofNat 32 maxopen })
      (s.renew i) :=
  .setFd

theorem renewed_renew (h : (s.fdPage i).isSome) : Renewed i s (s.renew i) where
  fileid := (sameTable_renew.fileid i).trans (by simp [Serv.setEntry])
  others j hj := (sameTable_renew.fileid j).trans (by simp [Serv.setEntry, hj])
  page := .inl ⟨sameTable_renew.fdPage, sameTable_renew.nextPage⟩
  mapped := by
    rw [sameTable_renew.fdPage]
    exact h
  opens := sameTable_renew.opens
  maps := sameTable_renew.maps

theorem renewed_allocFd : Renewed i s ((s.allocFd i).renew i) := by
  have h : Renewed i (s.allocFd i) ((s.allocFd i).renew i) :=
    renewed_renew (by simp [Serv.allocFd])
  exact ⟨h.fileid, h.others, .inr ⟨sameTable_renew.fdPage, sameTable_renew.nextPage⟩, h.mapped,
    h.opens, h.maps⟩

theorem openfileAllocFrom_busy {is : List (Fin maxopen)} (h : 1 < s.pageref i) :
    s.openfileAllocFrom (i :: is) = s.openfileAllocFrom is := by
  rw [Serv.openfileAllocFrom]
  split
  · omega
  · omega
  · rfl

theorem openfileAllocFrom_here {is : List (Fin maxopen)} (h : s.pageref i ≤ 1) :
    s.openfileAllocFrom (i :: is) = s.openfileAllocFrom [i] := by
  rcases Nat.le_one_iff_eq_zero_or_eq_one.mp h with h | h
  · simp only [Serv.openfileAllocFrom, h]
  · simp only [Serv.openfileAllocFrom, h]

theorem openfileAllocFrom_first {is : List (Fin maxopen)} (h : s.First i) (hi : i ∈ is)
    (hs : is.Pairwise (· < ·)) : s.openfileAllocFrom is = s.openfileAllocFrom [i] := by
  induction is with
  | nil => cases hi
  | cons j is ih =>
    rw [List.pairwise_cons] at hs
    rcases List.mem_cons.mp hi with rfl | hi
    · exact openfileAllocFrom_here h.1
    · rw [openfileAllocFrom_busy (h.2 j (hs.1 i hi))]
      exact ih hi hs.2

theorem openfileAlloc_first (h : s.First i) : s.openfileAlloc = s.openfileAllocFrom [i] := by
  unfold Serv.openfileAlloc
  exact openfileAllocFrom_first h (List.mem_finRange i) (List.pairwise_lt_finRange maxopen)

theorem exists_first (h : s.pageref i ≤ 1) : ∃ j, s.First j := by
  induction i using WellFoundedLT.induction with
  | ind i ih =>
    by_cases hj : ∃ j < i, s.pageref j ≤ 1
    · obtain ⟨j, hji, hj⟩ := hj
      exact ih j hji hj
    · exact ⟨i, h, fun j hji => by
        by_contra hlt
        exact hj ⟨j, hji, by omega⟩⟩

theorem openfileAllocFrom_full {is : List (Fin maxopen)} (h : ∀ i, 1 < s.pageref i) :
    s.openfileAllocFrom is = ((-eMaxOpen, none), s) := by
  induction is with
  | nil => rfl
  | cons i is ih => rw [openfileAllocFrom_busy (h i), ih]

theorem openfileAlloc_full (h : ¬ ∃ i, s.pageref i ≤ 1) :
    s.openfileAlloc = ((-eMaxOpen, none), s) := by
  unfold Serv.openfileAlloc
  refine openfileAllocFrom_full fun i => ?_
  by_contra hlt
  exact h ⟨i, by omega⟩

theorem openfileAlloc_cases (h : s.First i) :
    (s.openfileAlloc = ((-eNoMem, none), s) ∧ s.pageref i = 0 ∧ s.cache.pages = 0) ∨
      ∃ t, s.openfileAlloc = (((s.opentab i).oFileid + BitVec.ofNat 32 maxopen, some i), t) ∧
        Renewed i s t := by
  rw [openfileAlloc_first h]
  rcases Nat.le_one_iff_eq_zero_or_eq_one.mp h.1 with h0 | h1
  · by_cases hm : s.cache.pages = 0
    · exact .inl ⟨by simp only [Serv.openfileAllocFrom, h0, if_pos hm], h0, hm⟩
    · refine .inr ⟨(s.allocFd i).renew i, ?_, renewed_allocFd⟩
      simp only [Serv.openfileAllocFrom, h0, if_neg hm, renewed_allocFd.fileid]
  · have hsome : (s.fdPage i).isSome := by
      cases hp : s.fdPage i with
      | none =>
        rw [Serv.pageref, hp] at h1
        cases h1
      | some p => rfl
    refine .inr ⟨s.renew i, ?_, renewed_renew hsome⟩
    simp only [Serv.openfileAllocFrom, h1, (renewed_renew hsome).fileid]

theorem Serv.Fit.idle (h : s.First i) (hf : s.Fit i) {p : Nat} (hp : s.fdPage i = some p) :
    s.clients p = 0 := by
  have hle := h.1
  have := hf.count p hp
  rw [Serv.pageref, hp] at hle
  dsimp only at hle
  omega

theorem openfileAlloc_fit (h : s.First i) (hf : s.Fit i) :
    ∃ t, s.openfileAlloc = (((s.opentab i).oFileid + BitVec.ofNat 32 maxopen, some i), t) ∧
      Renewed i s t := by
  rcases openfileAlloc_cases h with ⟨-, h0, hm⟩ | hr
  · cases hp : s.fdPage i with
    | none => exact absurd hm (hf.memory hp)
    | some p =>
      have := hf.count p hp
      rw [Serv.pageref, hp] at h0
      dsimp only at h0
      omega
  · exact hr

end Alloc

section Open

variable {page : Lib.Image} {r : Word} {o : Fin maxopen}

theorem run_serveOpen (ha : s.openfileAlloc = ((r, some o), u)) (hr : r.slt 0 = false) :
    (serveOpen page).run s = (openInto page o).run u := by
  simp only [StateT.run, serveOpen, ha, hr, Bool.false_eq_true, if_false]

theorem run_serveOpen_negative (ha : s.openfileAlloc = ((r, some o), u)) (hr : r.slt 0 = true) :
    (serveOpen page).run s = some ((r, none), u) := by
  simp only [StateT.run, serveOpen, ha, hr, if_true]

theorem run_serveOpen_none (ha : s.openfileAlloc = ((r, none), u)) :
    (serveOpen page).run s = some ((r, none), u) := by
  simp only [StateT.run, serveOpen, ha]

theorem sameTable_opened {g : OpenFile → OpenFile} {g' : Fd → Fd}
    (hg : ∀ o, (g o).oFileid = o.oFileid) : SameTable s ((s.setEntry o g).setFd o g') :=
  (SameTable.setEntry hg).trans .setFd

theorem openInto_wp : Wp True (openInto page o) s fun x t =>
    SameTable s t ∧ ∀ o', x.2 = some o' → o' = o := by
  refine .bind ((Keeps.fsCall s).mono fun r t ht => ?_)
  cases r with
  | error r => exact ⟨ht, fun _ h => by cases h⟩
  | ok f => exact ⟨ht.trans (sameTable_opened fun _ => rfl), fun _ h => (Option.some.inj h).symm⟩

theorem run_openInto {f : Nat} {c : Cache}
    (hp : (openPath (reqPath page) (page.word maxpathlen)).run.run s.cache = some (.ok f, c)) :
    ∃ t, (openInto page o).run s = some ((0, some o), t) ∧ SameTable s t := by
  have hrun : (fsCall (openPath (reqPath page) (page.word maxpathlen)).run).run s =
      some (.ok f, { s with cache := c }) := by
    rw [run_fsCall, hp]
    rfl
  rw [openInto, StateT.run_bind, hrun]
  refine ⟨_, rfl, ?_⟩
  exact SameTable.trans (t := { s with cache := c }) ⟨fun _ => rfl, rfl, rfl, rfl, rfl⟩
    (sameTable_opened fun _ => rfl)

end Open

section Invariant

structure OpenInv (s : Serv) : Prop where
  slot : ∀ i, (s.opentab i).oFileid.toNat % maxopen = i
  opened : ∀ o ∈ s.opens, o.fileid.toNat % maxopen = o.slot ∧
    o.fileid.toNat ≤ (s.opentab o.slot).oFileid.toNat
  rising : s.opens.Pairwise fun o o' => o.slot = o'.slot → o.fileid.toNat < o'.fileid.toNat
  live : ∀ x ∈ s.maps, ∃ o, s.opens[x.1]? = some o ∧ s.fdPage o.slot = some o.page ∧
    o.fileid = (s.opentab o.slot).oFileid
  page_lt : ∀ i p, s.fdPage i = some p → p < s.nextPage
  page_inj : ∀ i j p, s.fdPage i = some p → s.fdPage j = some p → i = j

theorem openInv_start {c : Cache} : OpenInv (servStart c) where
  slot i := by
    have := i.isLt
    simp only [maxopen] at this ⊢
    simp only [servStart, BitVec.toNat_ofNat]
    omega
  opened o ho := by cases ho
  rising := .nil
  live x hx := by cases hx
  page_lt i p hp := by cases hp
  page_inj i j p hp := by cases hp

theorem OpenInv.same (h : OpenInv s) (hst : SameTable s t) : OpenInv t where
  slot i := by
    rw [hst.fileid]
    exact h.slot i
  opened o ho := by
    rw [hst.opens] at ho
    rw [hst.fileid]
    exact h.opened o ho
  rising := by
    rw [hst.opens]
    exact h.rising
  live x hx := by
    rw [hst.maps] at hx
    obtain ⟨o, ho, hp, hf⟩ := h.live x hx
    exact ⟨o, by rw [hst.opens, ho], by rw [hst.fdPage, hp], by rw [hst.fileid, hf]⟩
  page_lt := by
    rw [hst.fdPage, hst.nextPage]
    exact h.page_lt
  page_inj := by
    rw [hst.fdPage]
    exact h.page_inj

theorem OpenInv.remap (h : OpenInv s) {maps : List (Nat × EnvIx)}
    (hm : ∀ x ∈ maps, ∃ y ∈ s.maps, y.1 = x.1) : OpenInv { s with maps } where
  slot := h.slot
  opened := h.opened
  rising := h.rising
  live x hx := by
    obtain ⟨y, hy, hxy⟩ := hm x hx
    rw [← hxy]
    exact h.live y hy
  page_lt := h.page_lt
  page_inj := h.page_inj

theorem OpenInv.idle (h : OpenInv s) (hi : s.First i) (hf : s.Fit i) {x : Nat × EnvIx} {o : Opened}
    (hx : x ∈ s.maps) (ho : s.opens[x.1]? = some o) : o.slot ≠ i := by
  intro hslot
  obtain ⟨o', ho', hp, -⟩ := h.live x hx
  obtain rfl := Option.some.inj (ho.symm.trans ho')
  rw [hslot] at hp
  have h0 := hf.idle hi hp
  rw [Serv.clients, List.countP_eq_zero] at h0
  exact h0 x hx (by simp [Serv.mappedPage, ho])

theorem fileid_next {w : Word} (h : w.toNat + maxopen < 2 ^ 31) :
    (w + BitVec.ofNat 32 maxopen).toNat = w.toNat + maxopen := by
  simp only [maxopen] at h ⊢
  rw [BitVec.toNat_add, BitVec.toNat_ofNat]
  omega

theorem fileid_pos {w : Word} (h : w.toNat + maxopen < 2 ^ 31) :
    (w + BitVec.ofNat 32 maxopen).slt 0 = false := by
  have hn := fileid_next h
  rw [BitVec.slt_eq_decide, BitVec.toInt_eq_toNat_of_lt (by omega)]
  exact decide_eq_false (Int.not_lt.mpr (Int.natCast_nonneg _))

section Renew

variable (h : OpenInv s) (hi : s.First i) (hf : s.Fit i) (hr : Renewed i s t)

include hf hr

theorem Renewed.toNat_fileid : (t.opentab i).oFileid.toNat = (s.opentab i).oFileid.toNat + maxopen := by
  rw [hr.fileid, fileid_next hf.fileid]

theorem Renewed.fileid_le (j : Fin maxopen) :
    (s.opentab j).oFileid.toNat ≤ (t.opentab j).oFileid.toNat := by
  by_cases hj : j = i
  · subst hj
    rw [hr.toNat_fileid hf]
    exact Nat.le_add_right _ _
  · rw [hr.others j hj]

include h

theorem OpenInv.newest {o : Opened} (ho : o ∈ t.opens) (hs : o.slot = i) :
    o.fileid.toNat < (t.opentab i).oFileid.toNat := by
  rw [hr.opens] at ho
  have hle := (h.opened o ho).2
  rw [hs] at hle
  rw [hr.toNat_fileid hf]
  simp only [maxopen]
  omega

include hi

theorem OpenInv.renewed : OpenInv t where
  slot j := by
    by_cases hj : j = i
    · subst hj
      rw [hr.toNat_fileid hf, Nat.add_mod_right]
      exact h.slot j
    · rw [hr.others j hj]
      exact h.slot j
  opened o ho := by
    rw [hr.opens] at ho
    exact ⟨(h.opened o ho).1, (h.opened o ho).2.trans (hr.fileid_le hf o.slot)⟩
  rising := by
    rw [hr.opens]
    exact h.rising
  live x hx := by
    rw [hr.maps] at hx
    obtain ⟨o, ho, hp, hfile⟩ := h.live x hx
    have hne := h.idle hi hf hx ho
    refine ⟨o, by rw [hr.opens, ho], ?_, by rw [hr.others _ hne, hfile]⟩
    rcases hr.page with ⟨hpage, -⟩ | ⟨hpage, -⟩
    · rw [hpage, hp]
    · rw [hpage, Function.update_of_ne hne, hp]
  page_lt j p hp := by
    rcases hr.page with ⟨hpage, hn⟩ | ⟨hpage, hn⟩
    · rw [hpage] at hp
      rw [hn]
      exact h.page_lt j p hp
    · rw [hpage] at hp
      rw [hn]
      by_cases hj : j = i
      · subst hj
        rw [Function.update_self] at hp
        rw [← Option.some.inj hp]
        exact Nat.lt_succ_self _
      · rw [Function.update_of_ne hj] at hp
        exact Nat.lt_succ_of_lt (h.page_lt j p hp)
  page_inj j k p hj hk := by
    rcases hr.page with ⟨hpage, -⟩ | ⟨hpage, -⟩
    · rw [hpage] at hj hk
      exact h.page_inj j k p hj hk
    · rw [hpage] at hj hk
      have hnew : ∀ l, s.fdPage l ≠ some s.nextPage := fun l hl =>
        absurd (h.page_lt l _ hl) (Nat.lt_irrefl _)
      by_cases hji : j = i <;> by_cases hki : k = i
      · rw [hji, hki]
      · subst hji
        rw [Function.update_self] at hj
        rw [Function.update_of_ne hki, ← hj] at hk
        exact absurd hk (hnew k)
      · subst hki
        rw [Function.update_self] at hk
        rw [Function.update_of_ne hji, ← hk] at hj
        exact absurd hj (hnew j)
      · rw [Function.update_of_ne hji] at hj
        rw [Function.update_of_ne hki] at hk
        exact h.page_inj j k p hj hk

end Renew

theorem OpenInv.grant (h : OpenInv s) {e : EnvIx} {takes : Bool}
    (hnew : ∀ o ∈ s.opens, o.slot = i → o.fileid.toNat < (s.opentab i).oFileid.toNat) :
    OpenInv (s.grant i e takes) := by
  rw [Serv.grant]
  split
  · exact h
  · next p hp =>
      refine ⟨h.slot, fun o ho => ?_, ?_, fun x hx => ?_, h.page_lt, h.page_inj⟩
      · rcases List.mem_append.mp ho with ho | ho
        · exact h.opened o ho
        · rw [List.mem_singleton.mp ho]
          exact ⟨h.slot i, Nat.le_refl _⟩
      · refine List.pairwise_append.mpr ⟨h.rising, List.pairwise_singleton _ _, fun o ho o' ho' => ?_⟩
        rw [List.mem_singleton.mp ho']
        exact hnew o ho
      · have hold : ∀ y ∈ s.maps, ∃ o, (s.opens ++ [⟨i, (s.opentab i).oFileid, p⟩])[y.1]? = some o ∧
            s.fdPage o.slot = some o.page ∧ o.fileid = (s.opentab o.slot).oFileid := by
          intro y hy
          obtain ⟨o, ho, hlive⟩ := h.live y hy
          have hlt := (List.getElem?_eq_some_iff.mp ho).1
          exact ⟨o, by rw [List.getElem?_append_left hlt, ho], hlive⟩
        cases takes with
        | false => exact hold x hx
        | true =>
          rcases List.mem_cons.mp hx with rfl | hx
          · exact ⟨_, List.getElem?_concat_length, hp, rfl⟩
          · exact hold x hx

def Roomy (s : Serv) : ServEvent → Prop
  | .request _ req _ _ => req = 1 → ∀ i, s.First i → s.Fit i
  | _ => True

theorem OpenInv.serveOpen (h : OpenInv s) (hg : ∀ i, s.First i → s.Fit i) {page : Lib.Image} :
    Wp True (serveOpen page) s fun x t => OpenInv t ∧ ∀ i, x.2 = some i →
      ∀ o ∈ t.opens, o.slot = i → o.fileid.toNat < (t.opentab i).oFileid.toNat := by
  by_cases hfree : ∃ i, s.pageref i ≤ 1
  · obtain ⟨i, hi⟩ := exists_first hfree.choose_spec
    have hf := hg i hi
    obtain ⟨u, ha, hr⟩ := openfileAlloc_fit hi hf
    rw [Wp, run_serveOpen ha (fileid_pos hf.fileid)]
    refine openInto_wp.mono fun x t hx => ⟨(h.renewed hi hf hr).same hx.1, ?_⟩
    intro j hj o hmem hslot
    rw [hx.2 j hj] at hslot ⊢
    exact h.newest hf (hr.same hx.1) hmem hslot
  · rw [Wp, run_serveOpen_none (openfileAlloc_full hfree)]
    exact ⟨h, fun i hi => by cases hi⟩

theorem OpenInv.serveRequest (h : OpenInv s) {envid : EnvIx} {req : Word} {page : Lib.Image}
    (hg : req = 1 → ∀ i, s.First i → s.Fit i) :
    Wp True (serveRequest envid page req) s fun x t => OpenInv t ∧ ∀ i, x.2.1 = some i →
      ∀ o ∈ t.opens, o.slot = i → o.fileid.toNat < (t.opentab i).oFileid.toNat := by
  rw [Fs.serveRequest]
  split
  · next hreq => exact .bind ((h.serveOpen (hg hreq)).mono fun _ _ hx => hx)
  · exact .bind ((Keeps.handlers s).mono fun _ _ hst => ⟨h.same hst, fun i hi => by cases hi⟩)

theorem OpenInv.step (h : OpenInv s) {e : ServEvent} (hg : Roomy s e) (hst : servStep s e = some t) :
    OpenInv t := by
  cases e with
  | request envid req page takes =>
    obtain ⟨⟨⟨r, o, page'⟩, u⟩, hrun, hst⟩ := Option.bind_eq_some_iff.mp hst
    have hu := (h.serveRequest hg).ends hrun
    cases o with
    | none =>
      cases hst
      exact hu.1
    | some i =>
      cases hst
      exact hu.1.grant (hu.2 i rfl)
  | share x e =>
    obtain ⟨hx, hst⟩ := Option.ite_none_right_eq_some.mp hst
    obtain rfl := Option.some.inj hst
    refine h.remap fun y hy => ?_
    rcases List.mem_cons.mp hy with rfl | hy
    · exact ⟨x, hx, rfl⟩
    · exact ⟨y, hy, rfl⟩
  | unmap x =>
    obtain ⟨-, hst⟩ := Option.ite_none_right_eq_some.mp hst
    obtain rfl := Option.some.inj hst
    exact h.remap fun y hy => ⟨y, List.mem_of_mem_erase hy, rfl⟩
  | poke x fd =>
    obtain ⟨-, hst⟩ := Option.ite_none_right_eq_some.mp hst
    obtain ⟨p, -, rfl⟩ := Option.map_eq_some_iff.mp hst
    exact h.same ⟨fun _ => rfl, rfl, rfl, rfl, rfl⟩

theorem OpenInv.run {es : List ServEvent} (h : OpenInv s) (hrun : Run servStep Roomy s es t) :
    OpenInv t :=
  hrun.invariant OpenInv (fun h hg hst => h.step hg hst) h

theorem OpenInv.index_eq (h : OpenInv s) {k l : Nat} {o o' : Opened} (hk : s.opens[k]? = some o)
    (hl : s.opens[l]? = some o') (hslot : o.slot = o'.slot) (hid : o.fileid = o'.fileid) : k = l := by
  obtain ⟨hk', rfl⟩ := List.getElem?_eq_some_iff.mp hk
  obtain ⟨hl', rfl⟩ := List.getElem?_eq_some_iff.mp hl
  have hrise := List.pairwise_iff_getElem.mp h.rising
  rcases Nat.lt_trichotomy k l with hlt | heq | hgt
  · exact absurd (hrise k l hk' hl' hlt hslot) (by rw [hid]; exact Nat.lt_irrefl _)
  · exact heq
  · exact absurd (hrise l k hl' hk' hgt hslot.symm) (by rw [hid]; exact Nat.lt_irrefl _)

theorem OpenInv.apart (h : OpenInv s) {k l : Nat} {e e' : EnvIx} (hkl : k ≠ l) (hk : (k, e) ∈ s.maps)
    (hl : (l, e') ∈ s.maps) : ∃ o o', s.opens[k]? = some o ∧ s.opens[l]? = some o' ∧
      o.slot ≠ o'.slot ∧ o.fileid ≠ o'.fileid := by
  obtain ⟨o, ho, -, hid⟩ := h.live _ hk
  obtain ⟨o', ho', -, hid'⟩ := h.live _ hl
  have hslot : o.slot ≠ o'.slot := fun heq =>
    hkl (h.index_eq ho ho' heq (by rw [hid, hid', heq]))
  refine ⟨o, o', ho, ho', hslot, fun heq => hslot (Fin.ext ?_)⟩
  rw [← (h.opened o (List.mem_of_getElem? ho)).1, ← (h.opened o' (List.mem_of_getElem? ho')).1, heq]

theorem OpenInv.lookup_unmapped (h : OpenInv s) {k : Nat} {o : Opened} (hk : s.opens[k]? = some o)
    (hfree : ∀ e, (k, e) ∉ s.maps) (envid : EnvIx) : s.openfileLookup envid o.fileid = none := by
  have hslot : (⟨o.fileid.toNat % maxopen, Nat.mod_lt _ (by decide)⟩ : Fin maxopen) = o.slot :=
    Fin.ext (h.opened o (List.mem_of_getElem? hk)).1
  rw [Serv.openfileLookup, hslot, if_pos]
  by_contra hc
  obtain ⟨href, hid⟩ := not_or.mp hc
  rw [not_not] at hid
  cases hp : s.fdPage o.slot with
  | none =>
    rw [Serv.pageref, hp] at href
    exact href (Nat.zero_le 1)
  | some p =>
    have hpos : 0 < s.clients p := by
      rw [Serv.pageref, hp] at href
      dsimp only at href
      omega
    obtain ⟨x, hx, hpage⟩ := List.countP_pos_iff.mp hpos
    obtain ⟨o', ho', hp', hid'⟩ := h.live x hx
    have hpage' : o'.page = p := by simpa [Serv.mappedPage, ho'] using hpage
    rw [hpage'] at hp'
    have hsame := h.page_inj _ _ p hp' hp
    have hkx := h.index_eq ho' hk hsame (by rw [hid', hsame, hid])
    exact hfree x.2 (by rw [← hkx]; exact hx)

theorem serveOpen_maps {page : Lib.Image} :
    Wp True (serveOpen page) s fun _ t => t.opens = s.opens ∧ t.maps = s.maps := by
  by_cases hfree : ∃ i, s.pageref i ≤ 1
  · obtain ⟨i, hi⟩ := exists_first hfree.choose_spec
    rcases openfileAlloc_cases hi with ⟨ha, -, -⟩ | ⟨u, ha, hr⟩
    · rw [Wp, run_serveOpen_none ha]
      exact ⟨rfl, rfl⟩
    · rw [Wp]
      cases hneg : ((s.opentab i).oFileid + BitVec.ofNat 32 maxopen).slt 0 with
      | true =>
        rw [run_serveOpen_negative ha hneg]
        exact ⟨hr.opens, hr.maps⟩
      | false =>
        rw [run_serveOpen ha hneg]
        exact openInto_wp.mono fun x t hx =>
          ⟨hx.1.opens.trans hr.opens, hx.1.maps.trans hr.maps⟩
  · rw [Wp, run_serveOpen_none (openfileAlloc_full hfree)]
    exact ⟨rfl, rfl⟩

theorem serveRequest_maps {envid : EnvIx} {req : Word} {page : Lib.Image} :
    Wp True (serveRequest envid page req) s fun _ t => t.opens = s.opens ∧ t.maps = s.maps := by
  rw [serveRequest]
  split
  · exact .bind (serveOpen_maps.mono fun _ _ h => h)
  · exact .bind ((Keeps.handlers s).mono fun _ _ h => ⟨h.opens, h.maps⟩)

theorem servStep_unmapped {e : ServEvent} {k : Nat} {o : Opened} (hst : servStep s e = some t)
    (hk : s.opens[k]? = some o) (hfree : ∀ e, (k, e) ∉ s.maps) :
    t.opens[k]? = some o ∧ ∀ e, (k, e) ∉ t.maps := by
  have hlt : k < s.opens.length := (List.getElem?_eq_some_iff.mp hk).1
  cases e with
  | request envid req page takes =>
    obtain ⟨⟨⟨r, o', page'⟩, u⟩, hrun, hst⟩ := Option.bind_eq_some_iff.mp hst
    obtain ⟨hopens, hmaps⟩ := serveRequest_maps.ends hrun
    rw [← hopens] at hk hlt
    rw [← hmaps] at hfree
    cases o' with
    | none =>
      cases hst
      exact ⟨hk, hfree⟩
    | some i =>
      cases hst
      change (u.grant i envid takes).opens[k]? = _ ∧ ∀ e, (k, e) ∉ (u.grant i envid takes).maps
      rw [Serv.grant]
      split
      · exact ⟨hk, hfree⟩
      · refine ⟨(List.getElem?_append_left hlt).trans hk, fun e he => ?_⟩
        cases takes with
        | false => exact hfree e he
        | true =>
          rcases List.mem_cons.mp he with heq | he
          · exact absurd (congrArg Prod.fst heq) (Nat.ne_of_lt hlt)
          · exact hfree e he
  | share x e =>
    obtain ⟨hx, hst⟩ := Option.ite_none_right_eq_some.mp hst
    obtain rfl := Option.some.inj hst
    refine ⟨hk, fun e' he => ?_⟩
    rcases List.mem_cons.mp he with heq | he
    · obtain rfl : k = x.1 := congrArg Prod.fst heq
      exact hfree x.2 hx
    · exact hfree e' he
  | unmap x =>
    obtain ⟨-, hst⟩ := Option.ite_none_right_eq_some.mp hst
    obtain rfl := Option.some.inj hst
    exact ⟨hk, fun e he => hfree e (List.mem_of_mem_erase he)⟩
  | poke x fd =>
    obtain ⟨-, hst⟩ := Option.ite_none_right_eq_some.mp hst
    obtain ⟨p, -, rfl⟩ := Option.map_eq_some_iff.mp hst
    exact ⟨hk, hfree⟩

/-- Over runs in which every open finds its entry fit: an entry that is free is given to the next
open, which succeeds if its path is found; opens that are mapped have different entries and file
ids; and a file id that no client maps is not known again. -/
theorem opentab_run {c : Cache} {es : List ServEvent} {s : Serv}
    (h : Run servStep Roomy (servStart c) es s) :
    (∀ page, (∃ i, s.pageref i ≤ 1) → (∀ i, s.First i → s.Fit i) →
      s.openfileAlloc.1.1.slt 0 = false ∧
        ∀ f c', (openPath (reqPath page) (page.word maxpathlen)).run.run s.openfileAlloc.2.cache =
            some (.ok f, c') →
          ∃ i t, (serveOpen page).run s = some ((0, some i), t)) ∧
      (∀ k l e e', k ≠ l → (k, e) ∈ s.maps → (l, e') ∈ s.maps →
        ∃ o o', s.opens[k]? = some o ∧ s.opens[l]? = some o' ∧ o.slot ≠ o'.slot ∧
          o.fileid ≠ o'.fileid) ∧
      ∀ k o, s.opens[k]? = some o → (∀ e, (k, e) ∉ s.maps) →
        ∀ es' t, Run servStep Roomy s es' t → ∀ envid, t.openfileLookup envid o.fileid = none := by
  have hinv : OpenInv s := openInv_start.run h
  refine ⟨fun page hfree hfit => ?_, fun k l e e' => hinv.apart, fun k o hk hun es' t hrun envid => ?_⟩
  · obtain ⟨i, hi⟩ := exists_first hfree.choose_spec
    have hf := hfit i hi
    obtain ⟨u, ha, -⟩ := openfileAlloc_fit hi hf
    rw [ha]
    refine ⟨fileid_pos hf.fileid, fun f c' hp => ?_⟩
    obtain ⟨t, ht, -⟩ := run_openInto hp
    exact ⟨i, t, (run_serveOpen ha (fileid_pos hf.fileid)).trans ht⟩
  · have hkeep := hrun.invariant (fun t => t.opens[k]? = some o ∧ ∀ e, (k, e) ∉ t.maps)
      (fun ht _ hst => servStep_unmapped hst ht.1 ht.2) ⟨hk, hun⟩
    exact (hinv.run hrun).lookup_unmapped hkeep.1 hkeep.2 envid

end Invariant

section Reuse

def slash : Lib.Image := fun a => if a = 0 then 0x2F else 0

def bareCache : Cache := ⟨fun _ => 0, fun _ => 0, fun _ => 0, false, false, 1, []⟩

theorem reqPath_slash : reqPath slash = [0x2F] := by decide +kernel

theorem openPath_slash {c : Cache} :
    (openPath (reqPath slash) (slash.word maxpathlen)).run.run c = some (.ok sRoot, c) := by
  have hmode : slash.word maxpathlen = 0 := Lib.Image.word_zero fun x hx _ => if_neg fun h => by
    rw [h, maxpathlen] at hx
    omega
  rw [reqPath_slash, hmode]
  rfl

structure Used (n : Nat) (s : Serv) : Prop where
  maps : s.maps = []
  opens : s.opens.length = n
  fileid : (s.opentab 0).oFileid.toNat = maxopen * n
  memory : s.fdPage 0 = none → s.cache.pages ≠ 0

theorem used_start : Used 0 (servStart bareCache) where
  maps := rfl
  opens := rfl
  fileid := rfl
  memory _ := Nat.one_ne_zero

section Round

variable {n : Nat} {e : EnvIx} (h : Used n s)

include h

theorem Used.clients (p : Nat) : s.clients p = 0 := by
  rw [Serv.clients, h.maps, List.countP_nil]

theorem Used.first : s.First 0 := by
  refine ⟨?_, fun j hj => absurd hj (Nat.not_lt_zero _)⟩
  rw [Serv.pageref]
  split
  · exact Nat.zero_le 1
  · rw [h.clients]

theorem Used.fit (hn : maxopen * (n + 1) < 2 ^ 31) : s.Fit 0 where
  fileid := by
    rw [h.fileid]
    exact hn
  memory := h.memory
  count p _ := by
    rw [h.clients]
    decide

theorem Used.first_fit (hn : maxopen * (n + 1) < 2 ^ 31) (i : Fin maxopen) (hi : s.First i) :
    s.Fit i := by
  by_cases hi0 : i = 0
  · rw [hi0]
    exact h.fit hn
  · exact absurd (hi.2 0 (Fin.pos_of_ne_zero hi0)) (Nat.not_lt.mpr h.first.1)

theorem Used.round (hn : maxopen * (n + 1) < 2 ^ 31) :
    ∃ t, Run servStep Roomy s [.request e 1 slash true, .unmap (n, e)] t ∧ Used (n + 1) t := by
  have hfit := h.fit hn
  obtain ⟨u, ha, hr⟩ := openfileAlloc_fit h.first hfit
  obtain ⟨v, hv, hst⟩ := run_openInto (o := 0) (openPath_slash (c := u.cache))
  have hs := hr.same hst
  obtain ⟨p, hp⟩ := Option.isSome_iff_exists.mp hs.mapped
  have hgrant : v.grant 0 e true =
      { v with opens := v.opens ++ [⟨0, (v.opentab 0).oFileid, p⟩], maps := [(n, e)] } := by
    rw [Serv.grant, hp]
    dsimp only
    rw [hs.opens, hs.maps, h.maps, h.opens, if_pos rfl]
  have hopen : servStep s (.request e 1 slash true) = some (v.grant 0 e true) := by
    have hrun : (serveRequest e slash 1).run s = some ((0, some 0, slash), v) := by
      rw [serveRequest, if_pos rfl, StateT.run_bind, run_serveOpen ha (fileid_pos hfit.fileid), hv]
      rfl
    rw [servStep, hrun]
    rfl
  have hroom : Roomy s (.request e 1 slash true) := fun _ => h.first_fit hn
  refine ⟨{ v.grant 0 e true with maps := [] },
    (Run.single hroom hopen).append (Run.single trivial ?_), ?_⟩
  · rw [hgrant, servStep]
    simp
  · rw [hgrant]
    refine ⟨rfl, by simp [hs.opens, h.opens], ?_, fun hnone => ?_⟩
    · rw [hs.toNat_fileid hfit, h.fileid, Nat.mul_succ]
    · rw [hp] at hnone
      cases hnone

end Round

theorem used_rounds (n : Nat) (hn : maxopen * n < 2 ^ 31) :
    ∃ es s, Run servStep Roomy (servStart bareCache) es s ∧ Used n s := by
  induction n with
  | zero => exact ⟨[], _, .nil, used_start⟩
  | succ n ih =>
    obtain ⟨es, s, hrun, hs⟩ := ih (lt_of_le_of_lt (Nat.mul_le_mul_left _ (Nat.le_succ n)) hn)
    obtain ⟨t, hround, ht⟩ := hs.round (e := ⟨0, by decide⟩) hn
    exact ⟨_, t, hrun.append hround, ht⟩

theorem opentab_run_twice :
    ∃ es s, Run servStep Roomy (servStart bareCache) es s ∧ s.opens.length = 2 ∧
      s.openfileAlloc.1.1.slt 0 = false ∧
      ∀ (k : Nat) (o : Opened), s.opens[k]? = some o →
        s.openfileLookup ⟨0, by decide⟩ o.fileid = none := by
  obtain ⟨es, s, hrun, hs⟩ := used_rounds 2 (by decide)
  obtain ⟨hopen, -, hstale⟩ := opentab_run hrun
  refine ⟨es, s, hrun, hs.opens, (hopen slash ⟨0, hs.first.1⟩ (hs.first_fit (by decide))).1, fun k o hk => ?_⟩
  refine hstale k o hk (fun e he => ?_) [] s .nil _
  rw [hs.maps] at he
  cases he

/-- After 2²¹ - 1 opens of the root directory, each unmapped before the next, the next one
fails: its file id is negative. -/
theorem open_fails_after_reuse :
    ∃ es s, Run servStep (fun _ _ => True) (servStart bareCache) es s ∧ s.pageref 0 ≤ 1 ∧
      (∃ f c, (openPath (reqPath slash) (slash.word maxpathlen)).run.run s.openfileAlloc.2.cache =
        some (.ok f, c)) ∧
      ∃ r t, (serveOpen slash).run s = some ((r, none), t) ∧ r.slt 0 = true := by
  obtain ⟨es, s, hrun, hs⟩ := used_rounds (2 ^ 21 - 1) (by decide)
  refine ⟨es, s, hrun.mono fun _ _ _ => trivial, hs.first.1, ⟨_, _, openPath_slash⟩, ?_⟩
  have hid : (s.opentab 0).oFileid = 0x7FFFFC00#32 := by
    apply BitVec.eq_of_toNat_eq
    rw [hs.fileid]
    rfl
  rcases openfileAlloc_cases hs.first with ⟨ha, -, -⟩ | ⟨t, ha, -⟩
  · exact ⟨_, _, run_serveOpen_none ha, by decide⟩
  · rw [hid] at ha
    exact ⟨_, _, run_serveOpen_negative ha (by decide), by decide⟩

end Reuse

end Jos.Fs
