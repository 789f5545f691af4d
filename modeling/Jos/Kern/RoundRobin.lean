import Jos.Kern.Demo

/-! `sched_yield` over whole runs: an environment that waits is not passed by twice. -/

namespace Jos.Kern

open Lib Kernel

/-- How far the search goes from slot `start` to `e`. -/
def ahead (start e : EnvIx) : Nat := (e.val + nenv - start.val) % nenv

variable {k k' : Kernel} {c : Cpu} {e x : EnvIx}

theorem ahead_slot {start : EnvIx} {i : Nat} (h : i ≤ ahead start e) :
    ahead start e = i + ahead (slot (start + i)) e := by
  have hs := start.isLt
  have he := e.isLt
  simp only [ahead, slot, nenv] at *
  omega

theorem slot_ahead (start e : EnvIx) : slot (start + ahead start e) = e := by
  have hs := start.isLt
  have he := e.isLt
  apply Fin.ext
  simp only [ahead, slot, nenv] at *
  omega

/-- The search stops at `e` or before it, and not where it starts if nothing waits there. -/
theorem schedPick_ahead {start : EnvIx} (he : k.status e = .runnable)
    (hs : k.status start ≠ .runnable) :
    ∃ x, schedPick k start = some x ∧ ahead x e < ahead start e := by
  cases hp : schedPick k start with
  | none => exact absurd he (schedPick_eq_none hp e)
  | some x =>
    rw [schedPick, List.find?_map] at hp
    obtain ⟨i, hi, rfl⟩ := Option.map_eq_some_iff.1 hp
    obtain ⟨hrun, -, hbefore⟩ := List.find?_range_eq_some.1 hi
    have hle : i ≤ ahead start e := by
      by_contra hlt
      have hnot := hbefore _ (Nat.lt_of_not_le hlt)
      simp [slot_ahead, he] at hnot
    have hpos : i ≠ 0 := by
      rintro rfl
      have hself : slot start = start := Fin.ext (Nat.mod_eq_of_lt start.isLt)
      simp [hself, hs] at hrun
    have hsum := ahead_slot hle
    exact ⟨_, rfl, by omega⟩

/-- The kernel, and what `sched_yield` has chosen on one CPU, the last one first. -/
structure Turns where
  kernel : Kernel
  chosen : List EnvIx

inductive TurnEvent
  | yield
  | other (k : Kernel)

def TurnEvent.isYield : TurnEvent → Bool
  | yield => true
  | other _ => false

/-- `other k` is what happens on any CPU between two calls of `sched_yield` on CPU `c`. -/
def turnStep (c : Cpu) (s : Turns) : TurnEvent → Option Turns
  | .yield => (schedYield s.kernel c).map fun k => ⟨k, (k.curenv c).toList ++ s.chosen⟩
  | .other k => some ⟨k, s.chosen⟩

/-- `e` waits whenever CPU `c` schedules away from the environment it has chosen last. -/
def Waits (c : Cpu) (e : EnvIx) (s : Turns) : TurnEvent → Prop
  | .yield => s.kernel.status e = .runnable ∧ ∃ cur, s.kernel.curenv c = some cur ∧
      envx (s.kernel.envs cur).envId = cur ∧ s.kernel.status cur ≠ .runnable
  | .other k => k.curenv c = s.kernel.curenv c

structure InTurn (c : Cpu) (e : EnvIx) (s : Turns) : Prop where
  sorted : s.chosen.Pairwise fun x y => ahead x e < ahead y e
  passed : ∀ cur, s.kernel.curenv c = some cur → ∀ x ∈ s.chosen, ahead cur e ≤ ahead x e

theorem InTurn.yield {s : Turns} (h : InTurn c e s) (hw : Waits c e s .yield)
    (hy : schedYield s.kernel c = some k') :
    ∃ x, k'.curenv c = some x ∧ InTurn c e ⟨k', x :: s.chosen⟩ := by
  obtain ⟨he, cur, hcur, hid, hst⟩ := hw
  have hstart : schedStart s.kernel c = cur := by
    rw [schedStart, hcur]
    exact congrArg Fin.val hid
  obtain ⟨x, hx, hlt⟩ := schedPick_ahead he hst
  unfold schedYield at hy
  rw [hstart, hx] at hy
  have hran := (envRun_ran hy).curenv_self
  have hall : ∀ y ∈ s.chosen, ahead x e < ahead y e :=
    fun y hy => Nat.lt_of_lt_of_le hlt (h.passed cur hcur y hy)
  refine ⟨x, hran, List.pairwise_cons.2 ⟨hall, h.sorted⟩, fun cur' hcur' y hmem => ?_⟩
  rw [hran] at hcur'
  cases hcur'
  rcases List.mem_cons.1 hmem with rfl | hmem
  · exact le_rfl
  · exact (hall y hmem).le

theorem inTurn_run {es : List TurnEvent} {s : Turns}
    (h : Run (turnStep c) (Waits c e) ⟨k, []⟩ es s) :
    InTurn c e s ∧ s.chosen.length = es.countP TurnEvent.isYield := by
  induction h with
  | nil => exact ⟨⟨.nil, fun _ _ _ => nofun⟩, rfl⟩
  | @snoc t u es ev _ hw hst ih =>
    obtain ⟨hin, hlen⟩ := ih
    rw [List.countP_append, ← hlen]
    unfold turnStep at hst
    cases ev with
    | yield =>
      obtain ⟨k', hy, rfl⟩ := Option.map_eq_some_iff.1 hst
      obtain ⟨x, hx, hin'⟩ := hin.yield hw hy
      rw [hx]
      exact ⟨hin', rfl⟩
    | other k' =>
      cases hst
      exact ⟨⟨hin.sorted, fun cur hcur => hin.passed cur (hw ▸ hcur)⟩, rfl⟩

/-- While `e` waits, a CPU whose environments do not die under it chooses none of them twice, and
so comes to `e` before it has scheduled more often than there are environments. -/
theorem schedYield_in_turn {es : List TurnEvent} {s : Turns}
    (h : Run (turnStep c) (Waits c e) ⟨k, []⟩ es s) :
    s.chosen.Nodup ∧ es.countP TurnEvent.isYield ≤ nenv := by
  obtain ⟨hin, hlen⟩ := inTurn_run h
  have hnd : s.chosen.Nodup := hin.sorted.imp fun hlt heq => by
    rw [heq] at hlt
    exact lt_irrefl _ hlt
  have hcard := hnd.length_le_card
  rw [Fintype.card_fin, hlen] at hcard
  exact ⟨hnd, hcard⟩

theorem schedYield_in_turn_demo : ∃ k₀ k s, Booted demo (List.replicate 2 idleProg) k₀ ∧
    step k₀ (.start bootcpu) = some k ∧
    Run (turnStep bootcpu) (Waits bootcpu env1) ⟨k, []⟩ [.yield] s ∧ s.chosen.Nodup := by
  obtain ⟨k₀, _, _, _, _, _, hb, hs, -⟩ := demo_booted (n := 2) (by decide)
  obtain ⟨k, hst, same⟩ := hs.start (by decide) (by decide)
  obtain ⟨d, hd⟩ := hs.dirs_some (e := env1) (by decide)
  obtain ⟨⟨_, _, _, _, hv⟩, -⟩ := hs.created (e := env0) (by decide)
  have hcur : k.curenv bootcpu = some env0 := by
    rw [same.curenv_eq, dispatch_curenv, if_pos rfl]
  have hid : (k.envs env0).envId = envid0 := by
    rw [same.field Env.envId (fun _ _ _ _ => rfl),
      dispatch_field Env.envId (fun _ _ => rfl), hv]
    change envgen 0 env0 = envid0
    decide
  have hrun : ∀ e, k.status e = .runnable ↔ e = env1 := by
    intro e
    rw [same.status_eq, dispatch_status, hs.curenv_none, hs.status_eq]
    simp only [reduceCtorEq, false_and, if_false, Fin.ext_iff, env0, env1]
    split_ifs <;> simp <;> omega
  obtain ⟨k', hy, -⟩ := schedYield_pick (c := bootcpu) (schedPick_unique hrun _)
    (by rw [same.dirs_eq, dispatch_dirs]; exact hd)
  have hwait : Waits bootcpu env1 ⟨k, []⟩ .yield :=
    ⟨(hrun env1).2 rfl, env0, hcur, by rw [hid]; decide, fun h =>
      absurd ((hrun env0).1 h) (by decide)⟩
  have hturn : turnStep bootcpu ⟨k, []⟩ .yield = some ⟨k', (k'.curenv bootcpu).toList ++ []⟩ := by
    unfold turnStep
    rw [hy, Option.map_some]
  have hr := Run.single hwait hturn
  exact ⟨k₀, k, _, hb, hst, hr, (schedYield_in_turn hr).1⟩

end Jos.Kern
