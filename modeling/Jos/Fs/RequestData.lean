import Jos.Fs.OpenTable
import Jos.Fs.WriteBack

/-! `serve_write` lets a request ask for as many bytes as a page has, which is more than the
buffer of the request holds. -/

namespace Jos.Fs

open Kern Lib

variable {f i n : Nat} {s : Serv} {envid : EnvIx} {page : Lib.Image}

def reqBuf (page : Lib.Image) : List Byte := (List.range 4088).map fun i => page (8 + i)

def writeData (envid : EnvIx) (page : Lib.Image) (data : List Byte) : Srv (Word × Lib.Image) := do
  let s ← get
  match s.openfileLookup envid (page.word 0) with
  | none => return (-eInval, page)
  | some o =>
    match s.fdPage o with
    | none => failure
    | some p =>
      let fd := s.fds p
      let r ← fsCall (fileWrite (s.opentab o).oFile (data.getD · 0) (BitVec.ofNat 32 data.length)
        fd.fdOffset).run
      match r with
      | .error r => return (r, page)
      | .ok n =>
        if n.slt 0 then
          return (n, page)
        else
          advance o n
          return (n, page)

/-- The server does what it would do if the request was for the first bytes of `req_buf`, and
nothing else. -/
def FromRequest (s : Serv) (envid : EnvIx) (page : Lib.Image) : Prop :=
  ∃ data, data <+: reqBuf page ∧ (serveWrite envid page).run s = (writeData envid page data).run s

theorem store_congr {a : Nat} {bs bs' : Nat → Byte} (h : ∀ j, j < n → bs j = bs' j) :
    store a n bs = store a n bs' := by
  have hput : ∀ m : Lib.Image, m.put a n bs = m.put a n bs' := by
    intro m
    funext x
    rw [Lib.Image.put, Lib.Image.put]
    split
    · next hx => exact h _ (by omega)
    · rfl
  rw [store, store]
  simp only [hput]

theorem chunk_le (pos stop : Word) : (chunk pos stop).toNat ≤ (stop - pos).toNat := by
  rw [chunk]
  split
  · next h => exact BitVec.le_def.1 h
  · exact Nat.le_refl _

theorem fileWriteFrom_congr {buf buf' : Nat → Byte} {pos stop : Word}
    (h : ∀ j, j < i + (stop - pos).toNat → buf j = buf' j) :
    fileWriteFrom f buf stop n pos i = fileWriteFrom f buf' stop n pos i := by
  induction n generalizing pos i with
  | zero => rfl
  | succ n ih =>
    have hle := chunk_le pos stop
    rw [fileWriteFrom, fileWriteFrom]
    generalize chunk pos stop = bn at hle ⊢
    have hstore : ∀ a, store a bn.toNat (fun j => buf (i + j)) =
        store a bn.toNat fun j => buf' (i + j) := fun a =>
      store_congr fun j hj => h _ (by omega)
    have hrest : fileWriteFrom f buf stop n (pos + bn) (i + bn.toNat) =
        fileWriteFrom f buf' stop n (pos + bn) (i + bn.toNat) := by
      refine ih fun j hj => h j ?_
      rw [show stop - (pos + bn) = stop - pos - bn by bv_omega,
        BitVec.toNat_sub_of_le (BitVec.le_def.2 hle)] at hj
      omega
    simp only [hstore, hrest]

theorem fileWrite_congr {buf buf' : Nat → Byte} {count offset : Word}
    (h : ∀ j, j < count.toNat → buf j = buf' j) :
    fileWrite f buf count offset = fileWrite f buf' count offset := by
  have hfrom : fileWriteFrom f buf (offset + count) count.toNat offset 0 =
      fileWriteFrom f buf' (offset + count) count.toNat offset 0 := by
    refine fileWriteFrom_congr fun j hj => h j ?_
    rwa [Nat.zero_add, BitVec.add_comm, BitVec.add_sub_cancel] at hj
  rw [fileWrite, fileWrite, hfrom]

theorem fsCall_pure {α : Type} {a : α} : fsCall (pure a) = (pure a : Srv α) := rfl

theorem run_get_bind {σ α : Type} {f : σ → StateT σ Option α} {s : σ} :
    (get >>= f).run s = (f s).run s := rfl

theorem exists_reqBuf_prefix (page : Lib.Image) (h : n ≤ 4088) : ∃ data, data <+: reqBuf page ∧ data.length = n ∧
    ∀ j, j < n → data.getD j 0 = page (8 + j) := by
  refine ⟨(reqBuf page).take n, List.take_prefix _ _, ?_, fun j hj => ?_⟩
  · rw [List.length_take, reqBuf, List.length_map, List.length_range]
    omega
  · rw [List.getD_eq_getElem?_getD, List.getElem?_take_of_lt hj, reqBuf, List.getElem?_map,
      List.getElem?_range (by omega), Option.map_some, Option.getD_some]

theorem fromRequest_of_le (h : (page.word 4).toNat ≤ 4088) : FromRequest s envid page := by
  have h4096 : (4096 : Word).toNat = 4096 := rfl
  have h4088 : (4088 : Word).toNat = 4088 := rfl
  have hclip : clip (page.word 4) = page.word 4 := by
    rw [clip, if_neg]
    rw [BitVec.lt_def]
    omega
  have hno : ¬ (4088 : Word) < page.word 4 := by
    rw [BitVec.lt_def]
    omega
  obtain ⟨data, hdata, hlen, hget⟩ := exists_reqBuf_prefix page h
  refine ⟨data, hdata, ?_⟩
  have hcount : (BitVec.ofNat 32 data.length : Word) = page.word 4 := by
    rw [hlen, BitVec.ofNat_toNat, BitVec.setWidth_eq]
  have hbuf : ∀ (t : Serv) j, j < (page.word 4).toNat →
      (if 8 + j < 4096 then page (8 + j) else t.cache.mem (8 + j - 4096)) = data.getD j 0 := by
    intro t j hj
    rw [if_pos (by omega), hget j hj]
  rw [serveWrite, writeData, hcount]
  rw [run_get_bind, run_get_bind]
  cases s.openfileLookup envid (page.word 0) with
  | none => rfl
  | some o =>
    dsimp only
    cases s.fdPage o with
    | none => rfl
    | some p =>
      dsimp only
      rw [hclip, if_neg hno, fsCall_pure, pure_bind, run_get_bind]
      exact congrArg (fun m => StateT.run (fsCall (ExceptT.run m) >>= _) s) (fileWrite_congr (hbuf s))

structure Serv.Room (s : Serv) (envid : EnvIx) (page : Lib.Image) (o : Fin maxopen) (p : Nat) :
    Prop where
  ready : Ready False s.cache
  lookup : s.openfileLookup envid (page.word 0) = some o
  mapped : s.fdPage o = some p
  node : Node s.cache.view (s.opentab o).oFile
  type : s.cache.view.word (fType (s.opentab o).oFile) ≠ ftypeDir
  max : (s.fds p).fdOffset.toNat + (clip (page.word 4)).toNat ≤ maxfilesize
  free : span (s.fds p).fdOffset.toNat ((s.fds p).fdOffset.toNat + (clip (page.word 4)).toNat) <
    freeCount s.cache.view

variable {o : Fin maxopen} {p : Nat}

theorem clip_toNat (n : Word) : (clip n).toNat = min 4096 n.toNat := by
  have h4096 : (4096 : Word).toNat = 4096 := rfl
  rw [clip]
  split
  · next h =>
    rw [BitVec.lt_def] at h
    omega
  · next h =>
    rw [BitVec.lt_def] at h
    omega

theorem serveWrite_of_room (h : s.Room envid page o p) :
    Wp False (serveWrite envid page) s fun r _ => r.1 = clip (page.word 4) := by
  refine .bind (.get ?_)
  rw [h.lookup]
  dsimp only
  rw [h.mapped]
  dsimp only
  have htouch : Wp False (if 4088 < clip (page.word 4) then touch 0 else return ()) s.cache
      fun _ c => Loads s.cache c := by
    refine .ite (fun _ => ?_) fun _ => .pure .refl
    have hlt := h.ready.mounted.two_lt
    have hin : s.cache.InUse 0 := ⟨by omega, h.ready.mounted.reserved 0 (by rw [bitmapEnd]; omega)⟩
    exact (touch_wp h.ready.up.super_mapped (h.ready.up.served hin)).mono fun _ c hc => hc.1
  refine .bind (fsCall_wp (htouch.mono fun _ c hc => ?_))
  refine .bind (.get (.bind (fsCall_wp ?_)))
  refine (fileWrite_of_free (h.ready.loads hc) (hc.view.symm ▸ h.node) (hc.view.symm ▸ h.type) h.max
    (hc.view.symm ▸ h.free)).mono fun r c' hr => ?_
  rw [hr]
  exact .ite (fun _ => .pure rfl) fun _ => .bind (.modify (.pure rfl))

theorem writeData_of_room (data : List Byte) (h : s.Room envid page o p)
    (hlen : data.length ≤ (clip (page.word 4)).toNat) :
    Wp False (writeData envid page data) s fun r _ => r.1 = BitVec.ofNat 32 data.length := by
  have hclip := clip_toNat (page.word 4)
  have hcount : (BitVec.ofNat 32 data.length : Word).toNat = data.length := by
    rw [BitVec.toNat_ofNat]
    omega
  have hmax := h.max
  have hfree := h.free
  refine .bind (.get ?_)
  rw [h.lookup]
  dsimp only
  rw [h.mapped]
  dsimp only
  refine .bind (fsCall_wp ?_)
  refine (fileWrite_of_free h.ready h.node h.type ?_ ?_).mono fun r c' hr => ?_
  · rw [hcount]
    omega
  · rw [hcount]
    refine Nat.lt_of_le_of_lt ?_ hfree
    rw [span, span, blocksFor, blocksFor]
    split <;> split <;> omega
  · rw [hr]
    exact .ite (fun _ => .pure rfl) fun _ => .bind (.modify (.pure rfl))

theorem not_fromRequest (h : s.Room envid page o p) (hn : 4088 < (page.word 4).toNat) :
    ¬ FromRequest s envid page := by
  rintro ⟨data, hdata, hrun⟩
  have hclip := clip_toNat (page.word 4)
  have hlen : data.length ≤ 4088 := by
    have := hdata.length_le
    rwa [reqBuf, List.length_map, List.length_range] at this
  obtain ⟨r, t, hr, hr1⟩ := (serveWrite_of_room h).exists_run
  have hr2 := (writeData_of_room data h (by omega)).ends (hrun ▸ hr)
  have htoNat : (BitVec.ofNat 32 data.length : Word).toNat = data.length := by
    rw [BitVec.toNat_ofNat]
    omega
  rw [hr1] at hr2
  rw [hr2] at hclip
  omega

namespace Demo

def client : EnvIx := envx 1

def request (n : Word) : Lib.Image := Lib.Image.putWord (fun _ => 0) 4 n

theorem request_word {n : Word} : (request n).word 4 = n ∧ (request n).word 0 = 0 := by
  refine ⟨Lib.Image.word_putWord, ?_⟩
  rw [request, Lib.Image.word_putWord_of_disjoint (.inl (by decide)), Lib.Image.word_zero fun _ _ _ => rfl]

def serv (fileid : Word) : Serv where
  cache := cache 8 0xF0 0
  opentab _ := ⟨fileid, file, 2⟩
  fdPage _ := some 0
  fds _ := ⟨devfile, 0, 2, fileid⟩
  nextPage := 1
  opens := [⟨0, fileid, 0⟩]
  maps := [(0, client)]

theorem room_serv (envid : EnvIx) (page : Lib.Image) :
    ∃ o, (serv (page.word 0)).Room envid page o 0 := by
  refine ⟨⟨(page.word 0).toNat % maxopen, Nat.mod_lt _ (by decide)⟩, fits_eight.ready (by decide),
    ?_, rfl, node_cache, ?_, ?_, ?_⟩
  · have href : ∀ o, (serv (page.word 0)).pageref o = 2 := fun _ => rfl
    rw [Serv.openfileLookup, if_neg]
    rintro (hle | hne)
    · rw [href] at hle
      omega
    · exact hne rfl
  · change (cache 8 0xF0 0).view.word (fType file) ≠ ftypeDir
    rw [view_cache, type_file]
    decide
  · have hclip := clip_toNat (page.word 4)
    change 0 + (clip (page.word 4)).toNat ≤ maxfilesize
    rw [maxfilesize, ndirect, nindirect, blksize]
    omega
  · have hclip := clip_toNat (page.word 4)
    change span 0 (0 + (clip (page.word 4)).toNat) < freeCount (cache 8 0xF0 0).view
    rw [view_cache, fits_eight.freeCount_eq, span, blocksFor, show (8 : Word).toNat = 8 from rfl]
    split <;> omega

end Demo

/-- The requests that are served from their own buffer. -/
theorem serveWrite_fromRequest (page : Lib.Image) :
    ((∀ s envid, FromRequest s envid page) ↔ (page.word 4).toNat ≤ 4088) ∧
      ∀ s envid o p, s.Room envid page o p →
        (FromRequest s envid page ↔ (page.word 4).toNat ≤ 4088) := by
  have hroom : ∀ {s envid o p}, s.Room envid page o p → FromRequest s envid page →
      (page.word 4).toNat ≤ 4088 := fun h hfrom =>
    Nat.not_lt.1 fun hn => not_fromRequest h hn hfrom
  refine ⟨⟨fun h => ?_, fun h s envid => fromRequest_of_le h⟩, fun s envid o p h =>
    ⟨hroom h, fromRequest_of_le⟩⟩
  obtain ⟨o, ho⟩ := Demo.room_serv Demo.client page
  exact hroom ho (h _ _)

theorem serveWrite_fromRequest_full : FromRequest (Demo.serv 0) Demo.client (Demo.request 4088) :=
  (serveWrite_fromRequest _).1.2 (by rw [Demo.request_word.1]; decide) _ _

theorem not_fromRequest_demo : ¬ FromRequest (Demo.serv 0) Demo.client (Demo.request 4089) := by
  obtain ⟨o, ho⟩ := Demo.room_serv Demo.client (Demo.request 4089)
  rw [Demo.request_word.2] at ho
  refine not_fromRequest ho ?_
  rw [Demo.request_word.1]
  decide

end Jos.Fs
