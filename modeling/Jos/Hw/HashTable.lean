import Jos.Lib.Linked
import Jos.Lib.Run

/-! The hash table of `ph.c`, filled by threads that run at the same time. A step is one thread's
next access to what the threads share. -/

namespace Jos.Hw.HashTable

def nbucket : Nat := 5

def bucket (key : Nat) : Nat := key % nbucket

structure Entry where
  key : Nat
  value : Nat
  next : Option Nat
  deriving DecidableEq

inductive Pc
  | idle
  | locked
  | read (n : Option Nat)
  | linked (e : Nat)
  | stored
  deriving DecidableEq

/-- `todo t` are the keys and values that thread `t` has still to put, with the one it is at. -/
structure State (T : Type) where
  heap : Nat → Option Entry
  table : Nat → Option Nat
  lock : Nat → Option T
  todo : T → List (Nat × Nat)
  pc : T → Pc

variable {T : Type}

def start (puts : T → List (Nat × Nat)) : State T :=
  ⟨fun _ => none, fun _ => none, fun _ => none, puts, fun _ => .idle⟩

def getFrom (s : State T) (key : Nat) : Nat → Option Nat → Option (Option Nat)
  | 0, _ => none
  | _ + 1, none => some none
  | fuel + 1, some a =>
    match s.heap a with
    | none => none
    | some e => if e.key = key then some (some a) else getFrom s key fuel e.next

def get (s : State T) (fuel key : Nat) : Option (Option Nat) := getFrom s key fuel (s.table (bucket key))

def Holds (heap : Nat → Option Entry) (p : Option Nat) (xs : List (Nat × Nat)) : Prop :=
  ∃ l, Lib.Chain (fun a => (heap a).bind Entry.next) p l ∧
    l.map (fun a => (heap a).map fun e => (e.key, e.value)) = xs.map some

structure State.Busy (s : State T) (t : T) (key value : Nat) : Prop where
  lock : s.lock (bucket key) = some t
  read : ∀ n, s.pc t = .read n → s.table (bucket key) = n
  linked : ∀ a, s.pc t = .linked a → s.heap a = some ⟨key, value, s.table (bucket key)⟩

def State.left (s : State T) (t : T) : List (Nat × Nat) :=
  if s.pc t = .stored then (s.todo t).tail else s.todo t

/-- A step of thread `t` leaves alone what the others rely on. -/
structure Frame (t : T) (s s' : State T) : Prop where
  pc : ∀ u ≠ t, s'.pc u = s.pc u
  todo : ∀ u ≠ t, s'.todo u = s.todo u
  lock : ∀ b u, u ≠ t → s.lock b = some u → s'.lock b = some u ∧ s'.table b = s.table b
  heap : ∀ a e, s.heap a = some e → s'.heap a = some e

variable {s s' : State T} {t u : T} {key value a : Nat} {rest : List (Nat × Nat)}

theorem Frame.busy (h : Frame t s s') (hu : u ≠ t) (hb : s.Busy u key value) : s'.Busy u key value := by
  obtain ⟨hlock, htable⟩ := h.lock _ u hu hb.lock
  refine ⟨hlock, fun n hpc => ?_, fun a hpc => ?_⟩
  · rw [htable]
    exact hb.read n (h.pc u hu ▸ hpc)
  · rw [htable]
    exact h.heap _ _ (hb.linked a (h.pc u hu ▸ hpc))

theorem Frame.left (h : Frame t s s') (hu : u ≠ t) : s'.left u = s.left u := by
  rw [State.left, State.left, h.pc u hu, h.todo u hu]

section Chains

variable {heap : Nat → Option Entry} {p : Option Nat} {xs : List (Nat × Nat)}

theorem Holds.alloc (h : Holds heap p xs) (ha : heap a = none) (e : Entry) :
    Holds (Function.update heap a (some e)) p xs := by
  obtain ⟨l, hchain, hmap⟩ := h
  have hfree : a ∉ l := by
    intro hmem
    have hx := List.mem_map_of_mem (f := fun a => (heap a).map fun e => (e.key, e.value)) hmem
    rw [hmap] at hx
    obtain ⟨x, -, hx⟩ := List.mem_map.mp hx
    simp [ha] at hx
  have hnext : (fun x => (Function.update heap a (some e) x).bind Entry.next) =
      Function.update (fun x => (heap x).bind Entry.next) a e.next := by
    funext x
    by_cases hx : x = a
    · subst hx
      simp
    · simp [hx]
  refine ⟨l, by rw [hnext]; exact hchain.update_of_notMem hfree _, ?_⟩
  rw [← hmap]
  refine List.map_congr_left fun x hx => ?_
  rw [Function.update_of_ne (by rintro rfl; exact hfree hx)]

theorem Holds.push (h : Holds heap p xs) (ha : heap a = some ⟨key, value, p⟩) :
    Holds heap (some a) ((key, value) :: xs) := by
  obtain ⟨l, hchain, hmap⟩ := h
  refine ⟨a :: l, .cons ?_, ?_⟩
  · rwa [ha]
  · rw [List.map_cons, List.map_cons, hmap, ha]
    rfl

theorem getFrom_found (h : Holds s.heap p xs) (hmem : (key, value) ∈ xs) {fuel : Nat}
    (hf : xs.length ≤ fuel) :
    ∃ a e, getFrom s key fuel p = some (some a) ∧ s.heap a = some e ∧ e.key = key := by
  obtain ⟨l, hchain, hmap⟩ := h
  induction hchain generalizing xs fuel with
  | nil =>
    rw [List.map_nil, eq_comm, List.map_eq_nil_iff] at hmap
    rw [hmap] at hmem
    cases hmem
  | @cons a l hchain ih =>
    cases xs with
    | nil => cases hmem
    | cons x xs =>
      rw [List.map_cons, List.map_cons, List.cons.injEq] at hmap
      obtain ⟨e, he, hx⟩ := Option.map_eq_some_iff.mp hmap.1
      obtain ⟨fuel, rfl⟩ := Nat.exists_eq_add_of_le' (Nat.le_trans (Nat.le_add_left 1 xs.length) hf)
      rw [getFrom, he]
      dsimp only
      by_cases hkey : e.key = key
      · rw [if_pos hkey]
        exact ⟨a, e, rfl, he, hkey⟩
      · rw [if_neg hkey]
        have hne : (key, value) ≠ x := by
          rintro rfl
          exact hkey (congrArg Prod.fst hx)
        rw [he] at ih
        exact ih ((List.mem_cons.mp hmem).resolve_left hne) (Nat.le_of_succ_le_succ hf) hmap.2

end Chains

variable [DecidableEq T]

/-- A step of thread `t` in `put`; `a` is what `malloc` returns in it. A thread waits while the lock
is taken. -/
def step (s : State T) : T × Nat → Option (State T)
  | (t, a) =>
    match s.todo t with
    | [] => none
    | (key, value) :: rest =>
      let i := bucket key
      match s.pc t with
      | .idle =>
        if s.lock i = none then
          some { s with lock := Function.update s.lock i (some t), pc := Function.update s.pc t .locked }
        else none
      | .locked => some { s with pc := Function.update s.pc t (.read (s.table i)) }
      | .read n =>
        if s.heap a = none then
          some { s with
            heap := Function.update s.heap a (some ⟨key, value, n⟩)
            pc := Function.update s.pc t (.linked a) }
        else none
      | .linked e =>
        some { s with table := Function.update s.table i (some e), pc := Function.update s.pc t .stored }
      | .stored =>
        some { s with
          lock := Function.update s.lock i none
          todo := Function.update s.todo t rest
          pc := Function.update s.pc t .idle }

def putsOf (t : T) (log : List (T × Nat × Nat)) : List (Nat × Nat) :=
  ((log.filter fun x => x.1 = t).map Prod.snd).reverse

def inBucket (b : Nat) (log : List (T × Nat × Nat)) : List (Nat × Nat) :=
  (log.map Prod.snd).filter fun x => bucket x.1 = b

structure Inv (puts : T → List (Nat × Nat)) (log : List (T × Nat × Nat)) (s : State T) : Prop where
  order : ∀ t, putsOf t log ++ s.left t = puts t
  busy : ∀ t, s.pc t ≠ .idle → ∃ key value rest, s.todo t = (key, value) :: rest ∧ s.Busy t key value
  chains : ∀ b, Holds s.heap (s.table b) (inBucket b log)

variable {puts : T → List (Nat × Nat)} {log : List (T × Nat × Nat)}

theorem Inv.busy_frame (hi : Inv puts log s) (h : Frame t s s')
    (hbusy : s'.pc t ≠ .idle → ∃ key value rest, s'.todo t = (key, value) :: rest ∧ s'.Busy t key value)
    (u : T) (hpc : s'.pc u ≠ .idle) :
    ∃ key value rest, s'.todo u = (key, value) :: rest ∧ s'.Busy u key value := by
  by_cases hu : u = t
  · subst hu
    exact hbusy hpc
  · rw [h.pc u hu] at hpc
    obtain ⟨key, value, rest, htodo, hb⟩ := hi.busy u hpc
    exact ⟨key, value, rest, by rw [h.todo u hu, htodo], h.busy hu hb⟩

theorem Inv.of_frame (hi : Inv puts log s) (h : Frame t s s') (hleft : s'.left t = s.left t)
    (hbusy : s'.pc t ≠ .idle → ∃ key value rest, s'.todo t = (key, value) :: rest ∧ s'.Busy t key value)
    (hchains : ∀ b, Holds s'.heap (s'.table b) (inBucket b log)) : Inv puts log s' := by
  refine ⟨fun u => ?_, hi.busy_frame h hbusy, hchains⟩
  by_cases hu : u = t
  · rw [hu, hleft]
    exact hi.order t
  · rw [h.left hu]
    exact hi.order u

theorem Inv.busy_of (hi : Inv puts log s) (htodo : s.todo t = (key, value) :: rest)
    (hpc : s.pc t ≠ .idle) : s.Busy t key value := by
  obtain ⟨key, value, rest, htodo', hb⟩ := hi.busy t hpc
  cases htodo.symm.trans htodo'
  exact hb

theorem Inv.acquire (hi : Inv puts log s) (htodo : s.todo t = (key, value) :: rest)
    (hpc : s.pc t = .idle) (hlock : s.lock (bucket key) = none) :
    Inv puts log { s with
      lock := Function.update s.lock (bucket key) (some t)
      pc := Function.update s.pc t .locked } := by
  refine hi.of_frame (t := t) ⟨fun u hu => Function.update_of_ne hu .., fun u _ => rfl, ?_, fun _ _ => id⟩ ?_ ?_
    hi.chains
  · intro b u _ hb
    have hne : b ≠ bucket key := by
      rintro rfl
      cases hlock.symm.trans hb
    exact ⟨(Function.update_of_ne hne ..).trans hb, rfl⟩
  · simp [State.left, hpc]
  · refine fun _ => ⟨key, value, rest, htodo, Function.update_self .., ?_, ?_⟩ <;> simp

theorem Inv.readHead (hi : Inv puts log s) (htodo : s.todo t = (key, value) :: rest)
    (hpc : s.pc t = .locked) :
    Inv puts log { s with pc := Function.update s.pc t (.read (s.table (bucket key))) } := by
  have hb := hi.busy_of htodo (by rw [hpc]; decide)
  refine hi.of_frame (t := t) ⟨fun u hu => Function.update_of_ne hu .., fun u _ => rfl,
    fun _ _ _ h => ⟨h, rfl⟩, fun _ _ => id⟩ ?_ ?_ hi.chains
  · simp [State.left, hpc]
  · refine fun _ => ⟨key, value, rest, htodo, hb.lock, ?_, ?_⟩ <;> simp

theorem Inv.link {n : Option Nat} (hi : Inv puts log s) (htodo : s.todo t = (key, value) :: rest)
    (hpc : s.pc t = .read n) (hfree : s.heap a = none) :
    Inv puts log { s with
      heap := Function.update s.heap a (some ⟨key, value, n⟩)
      pc := Function.update s.pc t (.linked a) } := by
  have hb := hi.busy_of htodo (by rw [hpc]; rintro ⟨⟩)
  refine hi.of_frame (t := t) ⟨fun u hu => Function.update_of_ne hu .., fun u _ => rfl,
    fun _ _ _ h => ⟨h, rfl⟩, ?_⟩ ?_ ?_ fun b => (hi.chains b).alloc hfree _
  · intro x e hx
    have hne : x ≠ a := by
      rintro rfl
      cases hfree.symm.trans hx
    exact (Function.update_of_ne hne ..).trans hx
  · simp [State.left, hpc]
  · refine fun _ => ⟨key, value, rest, htodo, hb.lock, ?_, ?_⟩
    · simp
    · simp [hb.read n hpc]

theorem Inv.store {e : Nat} (hi : Inv puts log s) (htodo : s.todo t = (key, value) :: rest)
    (hpc : s.pc t = .linked e) :
    Inv puts ((t, key, value) :: log) { s with
      table := Function.update s.table (bucket key) (some e)
      pc := Function.update s.pc t .stored } := by
  have hb := hi.busy_of htodo (by rw [hpc]; rintro ⟨⟩)
  have hf : Frame t s { s with
      table := Function.update s.table (bucket key) (some e)
      pc := Function.update s.pc t .stored } := by
    refine ⟨fun u hu => Function.update_of_ne hu .., fun u _ => rfl, fun b u hu h => ⟨h, ?_⟩, fun _ _ => id⟩
    refine Function.update_of_ne ?_ ..
    rintro rfl
    exact hu (Option.some.inj (h.symm.trans hb.lock))
  refine ⟨fun u => ?_, hi.busy_frame hf fun _ => ⟨key, value, rest, htodo, hb.lock, ?_, ?_⟩, fun b => ?_⟩
  · by_cases hu : u = t
    · subst hu
      simpa [putsOf, State.left, hpc, htodo] using hi.order u
    · rw [hf.left hu, ← hi.order u, putsOf, List.filter_cons_of_neg (by simpa using Ne.symm hu)]
      rfl
  · simp
  · simp
  · by_cases hkey : bucket key = b
    · subst hkey
      simpa [inBucket] using (hi.chains _).push (hb.linked e hpc)
    · simpa [inBucket, hkey, Function.update_of_ne (Ne.symm hkey)] using hi.chains b

theorem Inv.release (hi : Inv puts log s) (htodo : s.todo t = (key, value) :: rest)
    (hpc : s.pc t = .stored) :
    Inv puts log { s with
      lock := Function.update s.lock (bucket key) none
      todo := Function.update s.todo t rest
      pc := Function.update s.pc t .idle } := by
  have hb := hi.busy_of htodo (by rw [hpc]; decide)
  refine hi.of_frame (t := t) ⟨fun u hu => Function.update_of_ne hu .., fun u hu => Function.update_of_ne hu ..,
    fun b u hu h => ⟨?_, rfl⟩, fun _ _ => id⟩ ?_ ?_ hi.chains
  · refine (Function.update_of_ne ?_ ..).trans h
    rintro rfl
    exact hu (Option.some.inj (h.symm.trans hb.lock))
  · simp [State.left, hpc, htodo]
  · simp

theorem step_inv (hi : Inv puts log s) (h : step s (t, a) = some s') : ∃ log', Inv puts log' s' := by
  rw [step] at h
  cases htodo : s.todo t with
  | nil =>
    rw [htodo] at h
    cases h
  | cons x rest =>
    obtain ⟨key, value⟩ := x
    rw [htodo] at h
    dsimp only at h
    cases hpc : s.pc t with
    | idle =>
      rw [hpc] at h
      dsimp only at h
      split_ifs at h with hlock
      cases h
      exact ⟨log, hi.acquire htodo hpc hlock⟩
    | locked =>
      rw [hpc] at h
      cases h
      exact ⟨log, hi.readHead htodo hpc⟩
    | read n =>
      rw [hpc] at h
      dsimp only at h
      split_ifs at h with hfree
      cases h
      exact ⟨log, hi.link htodo hpc hfree⟩
    | linked e =>
      rw [hpc] at h
      cases h
      exact ⟨_, hi.store htodo hpc⟩
    | stored =>
      rw [hpc] at h
      cases h
      exact ⟨log, hi.release htodo hpc⟩

theorem start_inv (puts : T → List (Nat × Nat)) : Inv puts [] (start puts) :=
  ⟨fun _ => rfl, fun _ h => absurd rfl h, fun _ => ⟨[], .nil, rfl⟩⟩

theorem run_inv {es : List (T × Nat)} (h : Lib.Run step (fun _ _ => True) (start puts) es s) :
    ∃ log, Inv puts log s :=
  h.invariant (fun s => ∃ log, Inv puts log s)
    (by
      rintro s ⟨t, a⟩ s' ⟨log, hi⟩ - hstep
      exact step_inv hi hstep)
    ⟨[], start_inv puts⟩

/-- However the threads take turns, when they are done the keys and values are in an order `log`
of what they put: each bucket has an entry for each of its own, and `get` finds every key. -/
theorem puts_kept {es : List (T × Nat)} (h : Lib.Run step (fun _ _ => True) (start puts) es s)
    (hdone : ∀ t, s.todo t = []) :
    ∃ log : List (T × Nat × Nat), (∀ t, putsOf t log = puts t) ∧
      (∀ b, Holds s.heap (s.table b) (inBucket b log)) ∧
      ∀ t key value, (key, value) ∈ puts t → ∀ fuel, log.length ≤ fuel →
        ∃ a e, get s fuel key = some (some a) ∧ s.heap a = some e ∧ e.key = key := by
  obtain ⟨log, hi⟩ := run_inv h
  have hputs : ∀ t, putsOf t log = puts t := by
    intro t
    rw [← hi.order t, State.left, hdone t, List.tail_nil, ite_self, List.append_nil]
  refine ⟨log, hputs, hi.chains, fun t key value hmem fuel hf => ?_⟩
  rw [← hputs t, putsOf, List.mem_reverse] at hmem
  obtain ⟨x, hx, hkv⟩ := List.mem_map.mp hmem
  have hin : (key, value) ∈ inBucket (bucket key) log :=
    List.mem_filter.mpr ⟨List.mem_map.mpr ⟨x, (List.mem_filter.mp hx).1, hkv⟩, decide_eq_true rfl⟩
  refine getFrom_found (hi.chains (bucket key)) hin (Nat.le_trans (List.length_filter_le ..) ?_)
  rwa [List.length_map]

def demoPuts (t : Bool) : List (Nat × Nat) := if t then [(6, 1)] else [(1, 0), (2, 0)]

theorem puts_kept_demo :
    ∃ es s, Lib.Run step (fun _ _ => True) (start demoPuts) es s ∧ (∀ t, s.todo t = []) ∧
      ∃ log : List (Bool × Nat × Nat), (∀ t, putsOf t log = demoPuts t) ∧
        (∀ b, Holds s.heap (s.table b) (inBucket b log)) ∧
        ∀ t key value, (key, value) ∈ demoPuts t → ∀ fuel, log.length ≤ fuel →
          ∃ a e, get s fuel key = some (some a) ∧ s.heap a = some e ∧ e.key = key := by
  have hrun : ∃ s, Lib.Run step (fun _ _ => True) (start demoPuts)
      ([false, false, false, false, false, true, false, true, false, true, false, true, false, true, false].zip
        (List.range 15)) s ∧ ∀ t, s.todo t = [] :=
    Lib.Run.exists_ofFoldlM rfl
  obtain ⟨s, hs, hdone⟩ := hrun
  exact ⟨_, s, hs, hdone, puts_kept hs hdone⟩

end Jos.Hw.HashTable
