import Mathlib.Data.List.Induction
import Jos.Kern.Mmu

/-! `kern/spinlock.c`: the accesses of any number of CPUs to one lock, in any order. -/

namespace Jos.Kern.Spinlock

inductive Op
  | lock
  | unlock
  deriving DecidableEq

/-- Where a CPU is.  `mine` says whether it had the lock when it made its call. -/
inductive Pc
  | away (mine : Bool)
  /-- Before the load of `locked` in `holding`. -/
  | test (op : Op) (mine : Bool)
  /-- Before the load of `cpu`. -/
  | compare (op : Op) (mine : Bool)
  | spin
  | record
  | clear
  | release
  | panicked (op : Op) (mine : Bool)

structure State (ι : Type) where
  locked : Word
  cpu : Option ι
  pc : ι → Pc

/-- The CPU whose turn it is, and the function it calls if it is not in one. -/
structure Event (ι : Type) where
  cpu : ι
  op : Op

variable {ι : Type} [DecidableEq ι]

def State.goto (s : State ι) (c : ι) (p : Pc) : State ι := { s with pc := Function.update s.pc c p }

/-- How the functions go on when `holding` has answered. -/
def Pc.answered (op : Op) (mine : Bool) : Bool → Pc
  | true => if op = .lock then .panicked op mine else .clear
  | false => if op = .lock then .spin else .panicked op mine

def step (s : State ι) (e : Event ι) : State ι :=
  let c := e.cpu
  match s.pc c with
  | .away mine => s.goto c (.test e.op mine)
  | .test op mine => s.goto c (if s.locked = 0 then .answered op mine false else .compare op mine)
  | .compare op mine => s.goto c (.answered op mine (s.cpu = some c))
  | .spin => { s with locked := 1 }.goto c (if s.locked = 0 then .record else .spin)
  | .record => { s with cpu := some c }.goto c (.away true)
  | .clear => { s with cpu := none }.goto c .release
  | .release => { s with locked := 0 }.goto c (.away false)
  | .panicked op mine => s.goto c (.panicked op mine)

namespace Pc

/-- `lk->cpu` is this CPU. -/
def named : Pc → Bool
  | away mine | test _ mine | compare _ mine | panicked _ mine => mine
  | clear => true
  | spin | record | release => false

/-- Between the `xchg` that took the lock and the one that gives it back. -/
def owns : Pc → Bool
  | record | release => true
  | p => p.named

/-- It panics only when it takes the lock again or gives back what it does not have. -/
def fair : Pc → Bool
  | panicked op mine => decide (op = .lock) == mine
  | _ => true

theorem owns_of_named {p : Pc} (h : p.named = true) : p.owns = true := by
  cases p with
  | record | release => rfl
  | _ => exact h

end Pc

/-- `o` has the lock. -/
structure Inv (o : Option ι) (s : State ι) : Prop where
  owns : ∀ c, (s.pc c).owns = true ↔ o = some c
  locked : s.locked = 0 ↔ o = none
  named : ∀ c, (s.pc c).named = true ↔ s.cpu = some c
  fair : ∀ c, (s.pc c).fair = true

variable {s t : State ι} {o o' : Option ι} {c : ι} {p : Pc}

/-- A step of `c` to `p`, with which the lock goes from `o` to `o'`. -/
theorem Inv.moved (h : Inv o s) (hpc : t.pc = Function.update s.pc c p)
    (ho : ∀ d, d ≠ c → (o' = some d ↔ o = some d)) (hp : p.owns = true ↔ o' = some c)
    (hl : t.locked = 0 ↔ o' = none) (hcpu : ∀ d, d ≠ c → (t.cpu = some d ↔ s.cpu = some d))
    (hn : p.named = true ↔ t.cpu = some c) (hf : p.fair = true) : Inv o' t := by
  have hself : t.pc c = p := by rw [hpc, Function.update_self]
  have hother : ∀ {d}, d ≠ c → t.pc d = s.pc d := fun hd => by rw [hpc, Function.update_of_ne hd]
  refine ⟨fun d => ?_, hl, fun d => ?_, fun d => ?_⟩
  all_goals by_cases hdc : d = c
  · rw [hdc, hself, hp]
  · rw [hother hdc, h.owns, ho d hdc]
  · rw [hdc, hself, hn]
  · rw [hother hdc, h.named, hcpu d hdc]
  · rw [hdc, hself, hf]
  · rw [hother hdc, h.fair]

theorem Inv.goto (h : Inv o s) (hp : p.owns = (s.pc c).owns) (hn : p.named = (s.pc c).named)
    (hf : p.fair = true) : Inv o (s.goto c p) :=
  h.moved rfl (fun _ _ => .rfl) (hp ▸ h.owns c) h.locked (fun _ _ => .rfl) (hn ▸ h.named c) hf

/-- `holding` has told the truth. -/
theorem Inv.answered {op : Op} {mine : Bool} (h : Inv o s) (hp : mine = (s.pc c).owns)
    (hn : mine = (s.pc c).named) : Inv o (s.goto c (.answered op mine mine)) := by
  refine h.goto (.trans ?_ hp) (.trans ?_ hn) ?_
  all_goals cases mine <;> cases op <;> rfl

theorem Inv.step (h : Inv o s) (e : Event ι) : ∃ o', Inv o' (step s e) := by
  have howns := h.owns e.cpu
  have hnamed := h.named e.cpu
  have hother : ∀ {d : ι}, d ≠ e.cpu → some e.cpu ≠ some d :=
    fun hd h' => hd (Option.some.inj h').symm
  rw [Spinlock.step]
  cases hpc : s.pc e.cpu with rw [hpc] at howns hnamed
  | away mine => exact ⟨o, h.goto (by rw [hpc]; rfl) (by rw [hpc]; rfl) rfl⟩
  | test op mine =>
    refine ⟨o, ?_⟩
    dsimp only
    split
    · next hl =>
      have hmine : mine = false := by
        rw [Bool.eq_false_iff]
        exact fun hm => absurd ((h.locked.1 hl).symm.trans (howns.1 hm)) nofun
      subst hmine
      exact h.answered (by rw [hpc]; rfl) (by rw [hpc]; rfl)
    · exact h.goto (by rw [hpc]; rfl) (by rw [hpc]; rfl) rfl
  | compare op mine =>
    have hcpu : decide (s.cpu = some e.cpu) = mine := by
      rw [Bool.eq_iff_iff, decide_eq_true_iff]
      exact hnamed.symm
    dsimp only
    rw [hcpu]
    exact ⟨o, h.answered (by rw [hpc]; rfl) (by rw [hpc]; rfl)⟩
  | spin =>
    have hl1 : (1 : Word) ≠ 0 := by decide
    dsimp only
    split
    · next hl =>
      have hnone := h.locked.1 hl
      refine ⟨some e.cpu, h.moved rfl (fun d hd => ?_) ⟨fun _ => rfl, fun _ => rfl⟩
        ⟨(absurd · hl1), nofun⟩ (fun _ _ => .rfl) hnamed rfl⟩
      rw [hnone]
      exact ⟨(absurd · (hother hd)), nofun⟩
    · next hl =>
      exact ⟨o, h.moved rfl (fun _ _ => .rfl) howns
        ⟨(absurd · hl1), fun hn => absurd (h.locked.2 hn) hl⟩ (fun _ _ => .rfl) hnamed rfl⟩
  | record =>
    have ho := howns.1 rfl
    refine ⟨o, h.moved rfl (fun _ _ => .rfl) howns h.locked (fun d hd => ?_)
      ⟨fun _ => rfl, fun _ => rfl⟩ rfl⟩
    refine ⟨(absurd · (hother hd)), fun hcpu => ?_⟩
    have hd' := (h.owns d).1 (Pc.owns_of_named ((h.named d).2 hcpu))
    exact absurd (ho.symm.trans hd') (hother hd)
  | clear =>
    refine ⟨o, h.moved rfl (fun _ _ => .rfl) howns h.locked (fun d hd => ?_) ⟨nofun, nofun⟩ rfl⟩
    rw [hnamed.1 rfl]
    exact ⟨nofun, (absurd · (hother hd))⟩
  | release =>
    refine ⟨none, h.moved rfl (fun d hd => ?_) ⟨nofun, nofun⟩ ⟨fun _ => rfl, fun _ => rfl⟩
      (fun _ _ => .rfl) hnamed rfl⟩
    rw [howns.1 rfl]
    exact ⟨nofun, (absurd · (hother hd))⟩
  | panicked op mine => exact ⟨o, h.goto (by rw [hpc]) (by rw [hpc]) (hpc ▸ h.fair e.cpu)⟩

/-- After `__spin_initlock`. -/
def start : State ι := ⟨0, none, fun _ => .away false⟩

theorem inv_run (es : List (Event ι)) : ∃ o, Inv o (es.foldl step start) := by
  induction es using List.reverseRecOn with
  | nil => exact ⟨none, fun _ => ⟨nofun, nofun⟩, ⟨fun _ => rfl, fun _ => rfl⟩,
      fun _ => ⟨nofun, nofun⟩, fun _ => rfl⟩
  | append_singleton es e ih =>
    obtain ⟨o, h⟩ := ih
    rw [List.foldl_append]
    exact h.step e

/-- What the lock is for, and that only wrong calls panic. -/
structure Excludes (s : State ι) : Prop where
  one : ∀ c d, (s.pc c).owns = true → (s.pc d).owns = true → c = d
  free : s.locked = 0 ↔ ∀ c, (s.pc c).owns = false
  cpu : ∀ c, s.pc c = .away true → s.cpu = some c
  panicked : ∀ c op mine, s.pc c = .panicked op mine → (op = .lock ↔ mine = true)

theorem spinlock_excludes (es : List (Event ι)) : Excludes (es.foldl step start) := by
  obtain ⟨o, h⟩ := inv_run es
  refine ⟨fun c d hc hd => ?_, ⟨fun hl c => ?_, fun hfree => ?_⟩, fun c hc => ?_,
    fun c op mine hc => ?_⟩
  · exact Option.some.inj (((h.owns c).1 hc).symm.trans ((h.owns d).1 hd))
  · rw [Bool.eq_false_iff, Ne, h.owns, h.locked.1 hl]
    exact nofun
  · rw [h.locked]
    cases o with
    | none => rfl
    | some c => exact absurd ((h.owns c).2 rfl) (by rw [hfree c]; decide)
  · exact (h.named c).1 (by rw [hc]; rfl)
  · have hf := h.fair c
    rw [hc, Pc.fair, beq_iff_eq] at hf
    rw [← hf, decide_eq_true_iff]

end Jos.Kern.Spinlock
