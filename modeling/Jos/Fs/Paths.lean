import Jos.Fs.Names
import Jos.Fs.Demo

/-! Paths: what `walk_path` comes to. -/

namespace Jos.Fs

open Kern Lib Cache

variable {D : Prop} {s t u : Cache} {A : Set Label} {b d f g i j k n : Nat} {path name p : List Byte}
  {names : List (List Byte)} {m m' : Lib.Image}

section Components

def components (path : List Byte) : List (List Byte) := (path.splitOn slashChar).filter (· ≠ [])

theorem components_nil : components [] = [] := rfl

theorem components_slash : components (slashChar :: p) = components p := by
  rw [components, List.splitOn, List.splitOnP_cons_eq_if_modifyHead, if_pos (beq_self_eq_true _)]
  rfl

theorem components_skipSlash : components (skipSlash p) = components p := by
  induction p with
  | nil => rfl
  | cons c p ih =>
    rw [skipSlash]
    split
    · next hc => rw [ih, hc, components_slash]
    · rfl

def NoSlash (path : List Byte) : Prop := ∀ p, path ≠ slashChar :: p

theorem noSlash_skipSlash : NoSlash (skipSlash p) := by
  induction p with
  | nil => exact nofun
  | cons c p ih =>
    rw [skipSlash]
    split
    · exact ih
    · next hc =>
      rintro q hq
      exact hc (List.cons.inj hq).1

theorem components_cons (hp : NoSlash path) (hne : path ≠ []) :
    path.takeWhile (· ≠ slashChar) ≠ [] ∧
    components path = path.takeWhile (· ≠ slashChar) ::
      components (skipSlash (path.dropWhile (· ≠ slashChar))) := by
  have hname : path.takeWhile (· ≠ slashChar) ≠ [] := by
    cases path with
    | nil => exact absurd rfl hne
    | cons c path =>
      rw [List.takeWhile_cons, if_pos]
      · exact List.cons_ne_nil _ _
      · exact decide_eq_true fun hc => hp path (hc ▸ rfl)
  refine ⟨hname, ?_⟩
  have hfree : ∀ x ∈ path.takeWhile (· ≠ slashChar), (x == slashChar) = false := by
    intro x hx
    have hall := List.all_eq_true.1 (List.all_takeWhile (p := (· ≠ slashChar)) (l := path)) x hx
    exact beq_eq_false_iff_ne.2 (of_decide_eq_true hall)
  rw [components_skipSlash]
  conv_lhs => rw [← List.takeWhile_append_dropWhile (p := (· ≠ slashChar)) (l := path)]
  cases hrest : path.dropWhile (· ≠ slashChar) with
  | nil =>
    rw [List.append_nil, components, List.splitOn, List.splitOnP_eq_singleton hfree, List.filter_cons,
      if_pos (decide_eq_true hname)]
    rfl
  | cons c rest =>
    obtain rfl : c = slashChar := by
      have hc := List.head?_dropWhile_not (· ≠ slashChar) path
      rw [hrest] at hc
      exact not_not.1 (of_decide_eq_false hc)
    rw [components_slash, components, List.splitOn,
      List.splitOnP_append_cons_of_forall_mem hfree _ (beq_self_eq_true _), List.filter_cons,
      if_pos (decide_eq_true hname)]
    rfl

theorem components_eq_nil (hp : NoSlash path) : components path = [] ↔ path = [] := by
  constructor
  · intro h
    by_contra hne
    rw [(components_cons hp hne).2] at h
    cases h
  · rintro rfl
    rfl

theorem skipSlash_length_le : (skipSlash p).length ≤ p.length := by
  induction p with
  | nil => exact Nat.le_refl _
  | cons c p ih =>
    rw [skipSlash]
    split
    · exact Nat.le_succ_of_le ih
    · exact Nat.le_refl _

theorem skipSlash_subset : skipSlash p ⊆ p := by
  induction p with
  | nil => exact List.Subset.refl _
  | cons c p ih =>
    rw [skipSlash]
    split
    · exact List.subset_cons_of_subset c ih
    · exact List.Subset.refl _

theorem rest_length_lt (hp : NoSlash path) (hne : path ≠ []) :
    (skipSlash (path.dropWhile (· ≠ slashChar))).length < path.length := by
  have hname := List.length_pos_iff.2 (components_cons hp hne).1
  have hle := skipSlash_length_le (p := path.dropWhile (· ≠ slashChar))
  have hsum : path.length = (path.takeWhile (· ≠ slashChar)).length +
      (path.dropWhile (· ≠ slashChar)).length := by
    rw [← List.length_append, List.takeWhile_append_dropWhile]
  omega

theorem mem_components (hp : NoSlash path) (h0 : 0 ∉ path) (h : name ∈ components path) :
    name ≠ [] ∧ 0 ∉ name := by
  induction hn : path.length using Nat.strong_induction_on generalizing path with
  | _ n ih =>
    by_cases hne : path = []
    · subst hne
      cases h
    · have hcons := components_cons hp hne
      rw [hcons.2, List.mem_cons] at h
      obtain rfl | h := h
      · exact ⟨hcons.1, fun hmem => h0 ((List.takeWhile_prefix _).subset hmem)⟩
      · refine ih _ (hn ▸ rest_length_lt hp hne) noSlash_skipSlash (fun hmem => h0 ?_) h rfl
        exact (List.dropWhile_suffix _).subset (skipSlash_subset hmem)

end Components

section Walk

def walkElems (f : Nat) : List (List Byte) → Act Walk
  | [] => return .found f
  | name :: rest =>
    if maxnamelen ≤ name.length then
      return .failed (-eBadPath)
    else do
      let type ← loadWord (fType f)
      if type ≠ ftypeDir then
        return .failed (-eNotFound)
      else
        let r ← (dirLookup f name).run
        match r with
        | .ok g => walkElems g rest
        | .error r =>
          if r = -eNotFound ∧ rest = [] then return .missing f name else return .failed r

theorem walkFrom_eq (hp : NoSlash path) (hn : path.length ≤ n) :
    walkFrom n f path = walkElems f (components path) := by
  induction n generalizing f path with
  | zero =>
    rw [List.length_eq_zero_iff.1 (Nat.le_zero.1 hn)]
    rfl
  | succ n ih =>
    by_cases hne : path = []
    · subst hne
      rfl
    · have hlt := rest_length_lt hp hne
      have hih := fun g => @ih g (skipSlash (path.dropWhile (· ≠ slashChar))) noSlash_skipSlash
        (by omega)
      have hnil := @components_eq_nil (skipSlash (path.dropWhile (· ≠ slashChar))) noSlash_skipSlash
      rw [(components_cons hp hne).2, walkFrom, if_neg hne, walkElems]
      refine if_congr Iff.rfl rfl (bind_congr fun type => if_congr Iff.rfl rfl (bind_congr fun r => ?_))
      cases r with
      | ok g => exact hih g
      | error e => exact if_congr (and_congr_right fun _ => hnil.symm) rfl rfl

theorem walkPath_eq : walkPath path = walkElems sRoot (components path) := by
  rw [walkPath, walkFrom_eq noSlash_skipSlash (Nat.le_refl _), components_skipSlash]

end Walk

section Resolve

/-- Where a list of components leads, from node `f` of the image. -/
def resolve (m : Lib.Image) (f : Nat) : List (List Byte) → Walk
  | [] => .found f
  | name :: rest =>
    if maxnamelen ≤ name.length then
      .failed (-eBadPath)
    else if m.word (fType f) ≠ ftypeDir then
      .failed (-eNotFound)
    else
      match lookup m f name with
      | some g => resolve m g rest
      | none => if rest = [] then .missing f name else .failed (-eNotFound)

def walkNeed (m : Lib.Image) (f : Nat) : List (List Byte) → Nat
  | [] => 0
  | name :: rest =>
    if maxnamelen ≤ name.length ∨ m.word (fType f) ≠ ftypeDir then
      0
    else
      need m f 0 (looked m f name) +
        match lookup m f name with
        | some g => walkNeed m g rest
        | none => 0

/-- The structures that can be reached, with the number of directories on the way. -/
inductive Depth (m : Lib.Image) : Nat → Nat → Prop
  | root : Depth m 0 sRoot
  | under {n d i b j : Nat} : Depth m n d → m.word (fType d) = ftypeDir → blockOf m d i = some b →
      j < blkfiles → Depth m (n + 1) (entry b j)

theorem Depth.node (h : Depth m n f) : Node m f := by
  induction h with
  | root => exact .root
  | under _ htype hb hj ih => exact .entry ih htype hb hj

theorem entry_ne_root : entry b j ≠ sRoot := by
  rw [entry, blksize, filesize, sRoot, blksize]
  omega

theorem Owned.depth_unique (hm : Owned m) (h : Depth m n f) (h' : Depth m k f) : n = k := by
  induction h generalizing k with
  | root =>
    generalize hf : sRoot = f at h'
    cases h' with
    | root => rfl
    | under => exact absurd hf.symm entry_ne_root
  | @under n d i b j hd htype hb hj ih =>
    generalize hf : entry b j = f at h'
    cases h' with
    | root => exact absurd hf entry_ne_root
    | @under k d' i' b' j' hd' htype' hb' hj' =>
      obtain ⟨rfl, -⟩ := entry_inj hj hj' hf
      obtain ⟨rfl, -⟩ := hm.block_inj hd.node hd'.node hb hb'
      rw [ih hd']

theorem Depth.lookup (h : Depth m n d) (htype : m.word (fType d) = ftypeDir)
    (hg : lookup m d name = some g) : Depth m (n + 1) g := by
  obtain ⟨i, -, hg⟩ := Option.bind_eq_some_iff.1 hg
  obtain ⟨b, hb, hg⟩ := Option.bind_eq_some_iff.1 hg
  obtain ⟨j, hj, rfl, -⟩ := findIn_eq_some hg
  exact .under h htype hb hj

theorem Depth.steps (h : Steps A s t) (hs : Ready D s) (hr : ∀ g, s.view.word (fType g) = ftypeDir → .resize g ∉ A)
    (hd : Depth s.view n d) : Depth t.view n d := by
  induction hd with
  | root => exact .root
  | @under n d i b j hd htype hb hj ih =>
    exact .under ih ((h.type hs hd.node).trans htype) (h.block hs hd.node (hr d htype) hb) hj

def Elems (names : List (List Byte)) : Prop := ∀ name ∈ names, name ≠ [] ∧ 0 ∉ name

theorem below_of_steps (h : Steps {.quiet, .grow d} s t) (hs : Ready D s) (hd : Depth s.view n d)
    (hf : Depth s.view k f) (hk : n < k) (hnames : Elems names) :
    resolve t.view f names = resolve s.view f names ∧
      walkNeed t.view f names = walkNeed s.view f names := by
  induction names generalizing f k with
  | nil => exact ⟨rfl, rfl⟩
  | cons name rest ih =>
    have hfd : f ≠ d := by
      rintro rfl
      exact Nat.ne_of_lt hk (hs.owned.depth_unique hd hf)
    rw [resolve, resolve, walkNeed, walkNeed, h.type hs hf.node]
    by_cases hlen : maxnamelen ≤ name.length
    · rw [if_pos hlen, if_pos hlen, if_pos (.inl hlen), if_pos (.inl hlen)]
      exact ⟨rfl, rfl⟩
    by_cases htype : s.view.word (fType f) = ftypeDir
    · have hlen' := Nat.not_le.1 hlen
      obtain ⟨hne, hz⟩ := hnames name List.mem_cons_self
      have hlook := lookup_of_steps h hs hf.node htype (by simp) (by simp) (by simp) hlen' hz hne
      have hneed : need t.view f 0 (looked t.view f name) = need s.view f 0 (looked s.view f name) := by
        rw [looked_of_steps h hs hf.node htype (by simp) (by simp) (by simp) hlen' hz, need, need,
          h.indirect hs hf.node (by simp [hfd]) (by simp),
          holes_congr fun i _ _ => h.blockOf hs hf.node (by simp [hfd]) (by simp)]
      rw [hlook, hneed]
      cases hg : lookup s.view f name with
      | none => exact ⟨rfl, rfl⟩
      | some g =>
        obtain ⟨hres, hneed⟩ := ih (hf.lookup htype hg) (Nat.lt_succ_of_lt hk)
          fun x hx => hnames x (List.mem_cons_of_mem _ hx)
        dsimp only
        rw [hres, hneed]
        exact ⟨rfl, rfl⟩
    · have hor : maxnamelen ≤ name.length ∨ s.view.word (fType f) ≠ ftypeDir := .inr htype
      rw [if_neg hlen, if_neg hlen, if_pos htype, if_pos htype, if_pos hor, if_pos hor]
      exact ⟨rfl, rfl⟩

end Resolve

def Filling (m : Lib.Image) : Set Label := {l | l = .quiet ∨ ∃ d, l = .grow d ∧
  (Node m d ∧ m.word (fType d) = ftypeDir) ∧ need m d 0 (dirSize m d) ≠ 0}

theorem looked_le : looked m d name ≤ dirSize m d := by
  rw [looked]
  split
  · next i hi => exact (firstHit_eq_some.1 hi).1
  · exact Nat.le_refl _

section Fill

variable (hd : Node s.view d) (htype : s.view.word (fType d) = ftypeDir)
include hd htype

theorem filling_of (h : Steps {.quiet, .grow d} s t) (hn : n ≤ dirSize s.view d)
    (hneed : need s.view d 0 n ≠ 0) : Steps (Filling s.view) s t := by
  refine h.mono ?_
  have := need_mono (m := s.view) (f := d) (i := 0) hn
  rintro l (rfl | rfl)
  · exact .inl rfl
  · exact .inr ⟨d, rfl, ⟨hd, htype⟩, by omega⟩

theorem Scanned.filling (h : Scanned d 0 n s t) (hn : n ≤ dirSize s.view d) :
    Steps (Filling s.view) s t := by
  by_cases hneed : need s.view d 0 n = 0
  · exact .loads (.inl rfl) (h.idle hneed)
  · exact filling_of hd htype h.steps hn hneed

end Fill

theorem Steps.dir (h : Steps A s t) (hs : Ready D s) (hd : Node t.view d)
    (htype : t.view.word (fType d) = ftypeDir) : Node s.view d := by
  have hinv : ∀ d, Node t.view d → Node s.view d ∨ t.view.word (fType d) = 0 := by
    refine h.invariant (fun t => ∀ d, Node t.view d → Node s.view d ∨ t.view.word (fType d) = 0) hs
      (fun {l u v} _ hu hst hi d hd => ?_) fun d hd => .inl hd
    have hc := hst.carries hu.toSane
    obtain hd' | ⟨h0, -⟩ := hc.fresh hd
    · rw [hc.type hd']
      exact hi d hd'
    · exact .inr h0
  refine (hinv d hd).resolve_right fun h0 => ?_
  rw [h0] at htype
  cases htype

theorem filling_subset (h : Steps A s t) (hs : Ready D s)
    (hr : ∀ g, s.view.word (fType g) = ftypeDir → .resize g ∉ A) (he : ∀ g, .enlarge g ∉ A) :
    Filling t.view ⊆ Filling s.view := by
  rintro l (rfl | ⟨d, rfl, ⟨hd, htype⟩, hneed⟩)
  · exact .inl rfl
  have hds := h.dir hs hd htype
  have htypes : s.view.word (fType d) = ftypeDir := (h.type hs hds).symm.trans htype
  refine .inr ⟨d, rfl, ⟨hds, htypes⟩, fun h0 => hneed (need_eq_zero.2 fun k hk hk' => ?_)⟩
  rw [dirSize_of_steps h hs hds htypes hr (he d)] at hk'
  obtain ⟨b, hb⟩ := Option.ne_none_iff_exists'.1 (need_eq_zero.1 h0 k hk hk')
  rw [h.block hs hds (hr d htypes) hb]
  exact Option.some_ne_none b

section Equations

variable {rest : List (List Byte)}

theorem walk_long (hlen : maxnamelen ≤ name.length) :
    resolve m f (name :: rest) = .failed (-eBadPath) ∧ walkNeed m f (name :: rest) = 0 := by
  rw [resolve, walkNeed, if_pos hlen, if_pos (.inl hlen)]
  exact ⟨rfl, rfl⟩

variable (hlen : ¬ maxnamelen ≤ name.length)
include hlen

theorem walk_file (htype : m.word (fType f) ≠ ftypeDir) :
    resolve m f (name :: rest) = .failed (-eNotFound) ∧ walkNeed m f (name :: rest) = 0 := by
  rw [resolve, walkNeed, if_neg hlen, if_pos htype, if_pos (.inr htype)]
  exact ⟨rfl, rfl⟩

variable (htype : m.word (fType f) = ftypeDir)
include htype

theorem walk_some (hg : lookup m f name = some g) : resolve m f (name :: rest) = resolve m g rest ∧
    walkNeed m f (name :: rest) = need m f 0 (looked m f name) + walkNeed m g rest := by
  rw [resolve, walkNeed, if_neg hlen, if_neg (not_not.2 htype), if_neg (not_or.2 ⟨hlen, not_not.2 htype⟩),
    hg]
  exact ⟨rfl, rfl⟩

theorem walk_none (hg : lookup m f name = none) :
    resolve m f (name :: rest) = (if rest = [] then .missing f name else .failed (-eNotFound)) ∧
      walkNeed m f (name :: rest) = need m f 0 (looked m f name) := by
  rw [resolve, walkNeed, if_neg hlen, if_neg (not_not.2 htype), if_neg (not_or.2 ⟨hlen, not_not.2 htype⟩),
    hg]
  exact ⟨rfl, rfl⟩

theorem le_walkNeed : need m f 0 (looked m f name) ≤ walkNeed m f (name :: rest) := by
  cases hg : lookup m f name with
  | none => rw [(walk_none hlen htype hg).2]
  | some g =>
    rw [(walk_some hlen htype hg).2]
    exact Nat.le_add_right _ _

end Equations

def Walked (f : Nat) (names : List (List Byte)) (s : Cache) (r : Walk) (t : Cache) : Prop :=
  Steps (Filling s.view) s t ∧
    if walkNeed s.view f names ≤ freeCount s.view then
      r = resolve s.view f names ∧ freeCount t.view + walkNeed s.view f names = freeCount s.view ∧
        (walkNeed s.view f names = 0 → Loads s t)
    else
      r = .failed (-eNoDisk) ∧ freeCount t.view = 0

theorem Walked.of_loads {r : Walk} (hl : Loads s t) (hr : r = resolve s.view f names)
    (h0 : walkNeed s.view f names = 0) : Walked f names s r t := by
  refine ⟨.loads (.inl rfl) hl, ?_⟩
  rw [h0, if_pos (Nat.zero_le _), hl.view]
  exact ⟨hr, rfl, fun _ => hl⟩

/-- `walk_path` comes to where the components lead, unless it runs out of blocks for the holes on
the way. -/
theorem walkElems_wp (hs : Ready D s) (hf : Depth s.view n f) (hnames : Elems names) :
    Wp D (walkElems f names) s (Walked f names s) := by
  induction names generalizing s n f with
  | nil => exact .pure (.of_loads .refl rfl rfl)
  | cons name rest ih =>
    obtain ⟨hne, hz⟩ := hnames name List.mem_cons_self
    refine .ite (fun hlen => .pure ?_) fun hlen => ?_
    · exact .of_loads .refl (walk_long hlen).1.symm (walk_long hlen).2
    refine .bind ((hs.loadWord_node hf.node (by decide) (by decide)).mono fun type t ht => ?_)
    obtain ⟨ht, hty⟩ := ht
    have hty : type = s.view.word (fType f) := hty
    subst hty
    refine .ite (fun htype => .pure ?_) fun htype => ?_
    · exact .of_loads ht (walk_file hlen htype).1.symm (walk_file hlen htype).2
    have htype := not_not.1 htype
    refine .bind ((dirLookup_wp (hs.loads ht) (ht.view.symm ▸ hf.node) (ht.view.symm ▸ htype)
      (Nat.not_le.1 hlen) hz hne).mono fun r u hu => ?_)
    rw [ht.view] at hu
    by_cases hle : need s.view f 0 (looked s.view f name) ≤ freeCount s.view
    · rw [if_pos hle] at hu
      obtain ⟨hscan, rfl⟩ := hu
      have hscan := hscan.of_loads ht
      have hfree := hscan.free
      cases hg : lookup s.view f name with
      | none =>
        obtain ⟨hres, hneed⟩ := @walk_none f name s.view rest hlen htype hg
        have hdone : ∀ {r}, r = resolve s.view f (name :: rest) → Walked f (name :: rest) s r u := by
          intro r hr
          refine ⟨hscan.filling hf.node htype looked_le, ?_⟩
          rw [hneed, if_pos hle]
          exact ⟨hr, hfree, hscan.idle⟩
        rw [hres] at hdone
        refine .ite (fun hrest => .pure (hdone ?_)) fun hrest => .pure (hdone ?_)
        · rw [if_pos hrest.2]
        · rw [if_neg fun h => hrest ⟨rfl, h⟩]
      | some g =>
        obtain ⟨hres, hneed⟩ := @walk_some f g name s.view rest hlen htype hg
        have hgd := hf.lookup htype hg
        have hrest : Elems rest := fun x hx => hnames x (List.mem_cons_of_mem _ hx)
        obtain ⟨hres', hneed'⟩ := below_of_steps hscan.steps hs hf hgd (Nat.lt_succ_self n) hrest
        refine (ih (hscan.steps.ready hs) (hgd.steps hscan.steps hs (by simp)) hrest).mono fun r v hv => ?_
        obtain ⟨hsteps, hv⟩ := hv
        refine ⟨(hscan.filling hf.node htype looked_le).trans
          (hsteps.mono (filling_subset hscan.steps hs (by simp) (by simp))), ?_⟩
        rw [hres', hneed'] at hv
        rw [hres, hneed]
        by_cases hle' : walkNeed s.view g rest ≤ freeCount u.view
        · rw [if_pos hle'] at hv
          rw [if_pos (by omega)]
          exact ⟨hv.1, by omega, fun h0 => (hscan.idle (by omega)).trans (hv.2.2 (by omega))⟩
        · rw [if_neg hle'] at hv
          rw [if_neg (by omega)]
          exact hv
    · rw [if_neg hle] at hu
      obtain ⟨hsteps, h0, rfl⟩ := hu
      have hneed := @le_walkNeed f name s.view rest hlen htype
      refine .ite (fun hbad => absurd hbad.1 (by decide)) fun _ => .pure ?_
      have hsteps : Steps {.quiet, .grow f} s u := .trans (.loads (.inl rfl) ht) hsteps
      refine ⟨filling_of (n := looked s.view f name) hf.node htype hsteps looked_le (by omega), ?_⟩
      rw [if_neg (by omega)]
      exact ⟨rfl, h0⟩

theorem walkPath_wp (hs : Ready D s) (h0 : 0 ∉ path) :
    Wp D (walkPath path) s (Walked sRoot (components path) s) := by
  rw [walkPath_eq, ← components_skipSlash]
  refine walkElems_wp hs .root fun name hname => ?_
  exact mem_components noSlash_skipSlash (fun hmem => h0 (skipSlash_subset hmem)) hname

/-- Every path is walked to where its components lead, whatever the slashes around them; the
walk fails for lack of blocks only if there are not enough for the holes on the way. -/
theorem walkPath_resolves (hs : Ready False s) (h0 : 0 ∉ path) :
    (∃ r t, (walkPath path).run s = some (r, t) ∧
      (r = resolve s.view sRoot (components path) ∨ r = .failed (-eNoDisk) ∧
        freeCount s.view < walkNeed s.view sRoot (components path))) ∧
      ∀ path', components path' = components path → (walkPath path').run s = (walkPath path).run s := by
  refine ⟨?_, fun path' h => ?_⟩
  · obtain ⟨r, t, hrun, -, hr⟩ := (walkPath_wp hs h0).exists_run
    refine ⟨r, t, hrun, ?_⟩
    split at hr
    · exact .inl hr.1
    · next hlt => exact .inr ⟨hr.1, Nat.not_le.1 hlt⟩
  · rw [walkPath_eq, walkPath_eq, h]

theorem walkPath_resolves_demo : ∃ t, (walkPath [0x2F, 0x2F, 0x61, 0x2F]).run (Demo.cache 8 0xF0 0) =
    some (.found Demo.file, t) := by
  obtain ⟨⟨r, t, hrun, hr | ⟨-, hlt⟩⟩, -⟩ := @walkPath_resolves (Demo.cache 8 0xF0 0)
    [0x2F, 0x2F, 0x61, 0x2F] (Demo.fits_eight.ready (by decide)) (by decide)
  · rw [Demo.view_cache] at hr
    have hres : resolve (Demo.image 8 0xF0 0) sRoot (components [0x2F, 0x2F, 0x61, 0x2F]) =
        .found Demo.file := by decide +kernel
    exact ⟨t, hrun.trans (by rw [hr, hres])⟩
  · rw [Demo.view_cache] at hlt
    have hneed : walkNeed (Demo.image 8 0xF0 0) sRoot (components [0x2F, 0x2F, 0x61, 0x2F]) = 0 := by
      decide +kernel
    omega

end Jos.Fs
