import Jos.Kern.IpcSpec

/-! Which environment runs where.  `Dispatched` holds whenever every CPU is outside the
kernel, `Inside c` while CPU `c` is in it; `Since c k₀ k` says what CPU `c` has done to the
others between the states `k₀` and `k`. -/

namespace Jos.Kern

open Lib Kernel

def IdleList (k : Kernel) : Prop :=
  ∃ l, Chain (fun e => (k.envs e).envLink) k.envFreeList l ∧ ∀ e ∈ l, k.status e = .free

structure Dispatched (k : Kernel) : Prop where
  inj : ∀ {c c' e}, k.curenv c = some e → k.curenv c' = some e → c = c'
  current : ∀ {c e}, k.curenv c = some e → k.status e = .running ∨ k.status e = .dying
  placed : ∀ {e}, k.status e = .running ∨ k.status e = .dying → ∃ c, k.curenv c = some e
  cr3 : ∀ {c e}, k.curenv c = some e → k.dirs e = some (k.cpus c).cr3
  list : IdleList k
  asleep : ∀ {c}, (k.cpus c).cpuStatus = .halted → k.curenv c = none

structure Around (c : Cpu) (k : Kernel) : Prop where
  inj : ∀ {c c' e}, k.curenv c = some e → k.curenv c' = some e → c = c'
  other : ∀ {c' e}, c' ≠ c → k.curenv c' = some e → k.status e = .running ∨ k.status e = .dying
  placed : ∀ {e}, k.status e = .running ∨ k.status e = .dying → ∃ c, k.curenv c = some e
  cr3 : ∀ {c e}, k.curenv c = some e → k.dirs e = some (k.cpus c).cr3
  list : IdleList k
  asleep : ∀ {c'}, c' ≠ c → (k.cpus c').cpuStatus = .halted → k.curenv c' = none
  awake : (k.cpus c).cpuStatus ≠ .halted

structure Inside (c : Cpu) (k : Kernel) : Prop extends Around c k where
  self : ∀ {e}, k.curenv c = some e → k.status e ≠ .dying ∧ k.status e ≠ .free

structure Since (c : Cpu) (k₀ k : Kernel) : Prop where
  cpus_eq : ∀ {c'}, c' ≠ c → k.cpus c' = k₀.cpus c'
  dying : ∀ {c' e}, c' ≠ c → k₀.curenv c' = some e → k₀.status e = .dying → k.status e = .dying
  trace : ∃ new, k.trace = new ++ k₀.trace ∧
    ∀ {c' e}, .freed c' e ∈ new → c' = c ∧ ∀ c'', c'' ≠ c → k₀.curenv c'' ≠ some e

theorem Since.refl (c : Cpu) (k : Kernel) : Since c k k :=
  ⟨fun _ => rfl, fun _ _ => id, [], rfl, by simp⟩

theorem Since.curenv_eq {c c' : Cpu} {k₀ k : Kernel} (h : Since c k₀ k) (hc : c' ≠ c) :
    k.curenv c' = k₀.curenv c' := by
  rw [curenv, h.cpus_eq hc, curenv]

theorem Dispatched.status_ne_free {c : Cpu} {k : Kernel} {e : EnvIx} (h : Dispatched k)
    (he : k.curenv c = some e) : k.status e ≠ .free := by
  intro hf
  rcases h.current he with hst | hst <;> rw [hf] at hst <;> cases hst

theorem Dispatched.around {c : Cpu} {k : Kernel} (h : Dispatched k)
    (hc : (k.cpus c).cpuStatus ≠ .halted) : Around c k :=
  ⟨h.inj, fun _ he => h.current he, h.placed, h.cr3, h.list, fun _ => h.asleep, hc⟩

theorem Dispatched.inside {c : Cpu} {k : Kernel} (h : Dispatched k)
    (hc : (k.cpus c).cpuStatus ≠ .halted)
    (hself : ∀ e, k.curenv c = some e → k.status e ≠ .dying) : Inside c k :=
  ⟨h.around hc, fun he => ⟨hself _ he, h.status_ne_free he⟩⟩

section

variable {c : Cpu} {k₀ k k' : Kernel} {e : EnvIx}

theorem IdleList.congr (h : IdleList k) (hl : k'.envFreeList = k.envFreeList)
    (hlink : ∀ e, (k'.envs e).envLink = (k.envs e).envLink)
    (hst : ∀ e, k.status e = .free → k'.status e = .free) : IdleList k' := by
  obtain ⟨l, hchain, hfree⟩ := h
  refine ⟨l, ?_, fun e he => hst e (hfree e he)⟩
  rw [hl, funext hlink]
  exact hchain

theorem Inside.congr (h : Inside c k) (hc : k'.cpus = k.cpus) (hs : ∀ e, k'.status e = k.status e)
    (hd : k'.dirs = k.dirs) (hl : k'.envFreeList = k.envFreeList)
    (hlink : ∀ e, (k'.envs e).envLink = (k.envs e).envLink) : Inside c k' := by
  have hcur : ∀ c', k'.curenv c' = k.curenv c' := by
    intro c'
    rw [curenv, hc, curenv]
  refine ⟨⟨?_, ?_, ?_, ?_, h.list.congr hl hlink fun e => by rw [hs]; exact id, ?_, ?_⟩, ?_⟩
  · intro c₁ c₂ e
    rw [hcur, hcur]
    exact h.inj
  · intro c₁ e
    rw [hcur, hs]
    exact h.other
  · intro e
    simp only [hcur, hs]
    exact h.placed
  · intro c₁ e
    rw [hcur, hd, hc]
    exact h.cr3
  · intro c₁
    rw [hcur, hc]
    exact h.asleep
  · rw [hc]
    exact h.awake
  · intro e
    rw [hcur, hs]
    exact h.self

theorem Since.congr (h : Since c k₀ k) (hc : k'.cpus = k.cpus) (hs : ∀ e, k'.status e = k.status e)
    (ht : k'.trace = k.trace) : Since c k₀ k' := by
  refine ⟨?_, ?_, ?_⟩
  · rw [hc]
    exact h.cpus_eq
  · intro c' e
    rw [hs]
    exact h.dying
  · rw [ht]
    exact h.trace

theorem Since.extend (h : Since c k₀ k) (hc : ∀ {c'}, c' ≠ c → k'.cpus c' = k.cpus c')
    (hs : ∀ {c' e}, c' ≠ c → k.curenv c' = some e → k.status e = .dying → k'.status e = .dying)
    (new : List Note) (ht : k'.trace = new ++ k.trace)
    (hnew : ∀ {c' e}, .freed c' e ∈ new → c' = c ∧ ∀ c'', c'' ≠ c → k.curenv c'' ≠ some e) :
    Since c k₀ k' := by
  obtain ⟨new₀, htrace, hfreed⟩ := h.trace
  refine ⟨fun hne => (hc hne).trans (h.cpus_eq hne), ?_, new ++ new₀, ?_, ?_⟩
  · intro c' e hne hcur hst
    exact hs hne (by rw [h.curenv_eq hne]; exact hcur) (h.dying hne hcur hst)
  · rw [ht, htrace, List.append_assoc]
  · intro c' e hmem
    rcases List.mem_append.1 hmem with hmem | hmem
    · obtain ⟨hcc, hcur⟩ := hnew hmem
      refine ⟨hcc, ?_⟩
      intro c'' hne
      rw [← h.curenv_eq hne]
      exact hcur c'' hne
    · exact hfreed hmem

theorem Inside.setEnv (h : Inside c k) (hne : ∀ c', c' ≠ c → k.curenv c' ≠ some e) {v : Env}
    (hpg : v.envPgdir = (k.envs e).envPgdir) (hl : v.envLink = (k.envs e).envLink)
    (hst : v.envStatus = .runnable ∨ v.envStatus = .notRunnable) (hnf : k.status e ≠ .free) :
    Inside c (k.setEnv e v) := by
  have hstatus : ∀ e', (k.setEnv e v).status e' = if e' = e then v.envStatus else k.status e' := by
    intro e'
    by_cases hee : e' = e
    · subst hee
      rw [status, envs_setEnv_self, if_pos rfl]
    · rw [status, envs_setEnv_of_ne k v hee, if_neg hee, status]
  refine ⟨⟨h.inj, ?_, ?_, ?_, h.list.congr rfl (envs_setEnv_field Env.envLink k e hl) ?_,
    h.asleep, h.awake⟩, ?_⟩
  · intro c' e' hc' hcur
    have hee : e' ≠ e := by
      rintro rfl
      exact hne c' hc' hcur
    rw [hstatus, if_neg hee]
    exact h.other hc' hcur
  · intro e' he'
    rw [hstatus] at he'
    split at he'
    · rcases hst with hst | hst <;> rw [hst] at he' <;> rcases he' with he' | he' <;> cases he'
    · exact h.placed he'
  · intro c' e' hcur
    rw [dirs_setEnv hpg]
    exact h.cr3 hcur
  · intro e' he'
    have hee : e' ≠ e := by
      rintro rfl
      exact hnf he'
    rw [hstatus, if_neg hee]
    exact he'
  · intro e' hcur
    rw [hstatus]
    split
    · rcases hst with hst | hst <;> rw [hst] <;> exact ⟨by decide, by decide⟩
    · exact h.self hcur

theorem Since.setEnv (h : Since c k₀ k) (hne : ∀ c', c' ≠ c → k.curenv c' ≠ some e) (v : Env) :
    Since c k₀ (k.setEnv e v) := by
  refine h.extend (fun _ => rfl) ?_ [] rfl (by simp)
  intro c' e' hc' hcur hst
  have hee : e' ≠ e := by
    rintro rfl
    exact hne c' hc' hcur
  rw [status, envs_setEnv_of_ne k v hee]
  exact hst

theorem Inside.note (h : Inside c k) (n : Note) : Inside c (k.note n) :=
  h.congr rfl (fun _ => rfl) rfl rfl fun _ => rfl

theorem Since.note (h : Since c k₀ k) {n : Note} (hn : ∀ c' e, n ≠ .freed c' e) :
    Since c k₀ (k.note n) := by
  refine h.extend (fun _ => rfl) (fun _ _ => id) [n] rfl ?_
  intro c' e hmem
  exact absurd (List.mem_singleton.1 hmem).symm (hn c' e)

theorem Inside.mark (h : Inside c k) (hst : k.status e = .running) (hne : k.curenv c ≠ some e) :
    Inside c (k.setStatus e .dying) := by
  refine ⟨⟨h.inj, ?_, ?_, ?_, h.list.congr rfl (envs_setEnv_field Env.envLink k e rfl) ?_,
    h.asleep, h.awake⟩, ?_⟩
  · intro c' e' hc' hcur
    rw [status_setStatus]
    split
    · exact .inr rfl
    · exact h.other hc' hcur
  · intro e' he'
    by_cases hee : e' = e
    · subst hee
      exact h.placed (.inl hst)
    · rw [status_setStatus, if_neg hee] at he'
      exact h.placed he'
  · intro c' e' hcur
    rw [setStatus, dirs_setEnv (k := k) (e := e) (by rfl)]
    exact h.cr3 hcur
  · intro e' he'
    have hee : e' ≠ e := by
      rintro rfl
      rw [he'] at hst
      cases hst
    rw [status_setStatus, if_neg hee]
    exact he'
  · intro e' hcur
    have hee : e' ≠ e := by
      rintro rfl
      exact hne hcur
    rw [status_setStatus, if_neg hee]
    exact h.self hcur

theorem Since.mark (h : Since c k₀ k) : Since c k₀ (k.setStatus e .dying) := by
  refine h.extend (fun _ => rfl) ?_ [] rfl (by simp)
  intro c' e' _ _ hst
  rw [status_setStatus]
  split
  · rfl
  · exact hst

theorem IdleList.freed (h : IdleList k) (hf : Freed k c e k') (hnl : k.status e ≠ .free) :
    IdleList k' := by
  obtain ⟨l, hchain, hfree⟩ := h
  have hel : e ∉ l := fun hl => hnl (hfree e hl)
  refine ⟨e :: l, ?_, ?_⟩
  · rw [hf.link_eq, hf.freeList_eq]
    exact hchain.push hel
  · intro e' he'
    rcases List.mem_cons.1 he' with rfl | hmem
    · rw [status, hf.envs_self]
    · have hee : e' ≠ e := by
        rintro rfl
        exact hel hmem
      rw [status, hf.envs_eq hee]
      exact hfree e' hmem

theorem Freed.status_of_ne (hf : Freed k c e k') {e' : EnvIx} (hee : e' ≠ e) :
    k'.status e' = k.status e' := by
  rw [status, hf.envs_eq hee, status]

theorem Freed.status_self (hf : Freed k c e k') : k'.status e = .free := by
  rw [status, hf.envs_self]

theorem Since.freed (h : Since c k₀ k) (hf : Freed k c e k')
    (hne : ∀ c', c' ≠ c → k.curenv c' ≠ some e) : Since c k₀ k' := by
  refine h.extend hf.cpus_eq ?_ [.freed c e] hf.trace_eq ?_
  · intro c' e' hc' hcur hst
    have hee : e' ≠ e := by
      rintro rfl
      exact hne c' hc' hcur
    rw [hf.status_of_ne hee]
    exact hst
  · intro c' e' hmem
    cases List.mem_singleton.1 hmem
    exact ⟨rfl, hne⟩

theorem Inside.freed (h : Inside c k) (hf : Freed k c e k') (hne : ∀ c', k.curenv c' ≠ some e)
    (hnf : k.status e ≠ .free) : Inside c k' := by
  have hee : ∀ {c' e'}, k.curenv c' = some e' → e' ≠ e := by
    rintro c' e' hcur rfl
    exact hne c' hcur
  refine ⟨⟨?_, ?_, ?_, ?_, h.list.freed hf hnf, ?_, ?_⟩, ?_⟩
  · intro c₁ c₂ e'
    rw [hf.curenv_eq, hf.curenv_eq]
    exact h.inj
  · intro c' e' hc' hcur
    rw [hf.curenv_eq] at hcur
    rw [hf.status_of_ne (hee hcur)]
    exact h.other hc' hcur
  · intro e' he'
    by_cases heq : e' = e
    · subst heq
      rw [hf.status_self] at he'
      rcases he' with he' | he' <;> cases he'
    · rw [hf.status_of_ne heq] at he'
      obtain ⟨c', hc'⟩ := h.placed he'
      exact ⟨c', by rw [hf.curenv_eq]; exact hc'⟩
  · intro c' e' hcur
    rw [hf.curenv_eq] at hcur
    have hcr3 : (k'.cpus c').cr3 = (k.cpus c').cr3 := by
      by_cases hcc : c' = c
      · subst hcc
        rw [hf.cr3_self, if_neg (hne c')]
      · rw [hf.cpus_eq hcc]
    rw [dirs, hf.envs_eq (hee hcur), hcr3]
    exact h.cr3 hcur
  · intro c'
    rw [hf.cpuStatus_eq, hf.curenv_eq]
    exact h.asleep
  · rw [hf.cpuStatus_eq]
    exact h.awake
  · intro e' hcur
    rw [hf.curenv_eq] at hcur
    rw [hf.status_of_ne (hee hcur)]
    exact h.self hcur

theorem Around.exit (h : Around c k) (hcur : k.curenv c = some e) (hnf : k.status e ≠ .free)
    (hf : Freed k c e k') : Inside c (k'.setCurenv c none) := by
  have hcur' : ∀ {c' e'}, (k'.setCurenv c none).curenv c' = some e' →
      c' ≠ c ∧ k.curenv c' = some e' ∧ e' ≠ e := by
    intro c' e' hc'
    rw [curenv_setCurenv] at hc'
    split at hc'
    · cases hc'
    · next hcc =>
      rw [hf.curenv_eq] at hc'
      refine ⟨hcc, hc', ?_⟩
      rintro rfl
      exact hcc (h.inj hc' hcur)
  have hcpu : ∀ {c'}, c' ≠ c → (k'.setCurenv c none).cpus c' = k.cpus c' := by
    intro c' hcc
    rw [← hf.cpus_eq hcc]
    exact Function.update_of_ne hcc _ _
  refine ⟨⟨?_, ?_, ?_, ?_, (h.list.freed hf hnf).congr rfl (fun _ => rfl) fun _ => id, ?_, ?_⟩, ?_⟩
  · intro c₁ c₂ e' h₁ h₂
    exact h.inj (hcur' h₁).2.1 (hcur' h₂).2.1
  · intro c' e' hc' he'
    obtain ⟨-, hk, hee⟩ := hcur' he'
    have := h.other hc' hk
    rw [← hf.status_of_ne hee] at this
    exact this
  · intro e' he'
    have hst : k'.status e' = .running ∨ k'.status e' = .dying := he'
    by_cases hee : e' = e
    · subst hee
      rw [hf.status_self] at hst
      rcases hst with hst | hst <;> cases hst
    · rw [hf.status_of_ne hee] at hst
      obtain ⟨c', hc'⟩ := h.placed hst
      refine ⟨c', ?_⟩
      have hcc : c' ≠ c := by
        rintro rfl
        rw [hcur] at hc'
        exact hee (Option.some.inj hc').symm
      rw [curenv_setCurenv, if_neg hcc, hf.curenv_eq]
      exact hc'
  · intro c' e' he'
    obtain ⟨hcc, hk, hee⟩ := hcur' he'
    have hdir : (k'.setCurenv c none).dirs e' = k.dirs e' := by
      change (k'.envs e').envPgdir = _
      rw [hf.envs_eq hee, dirs]
    rw [hcpu hcc, hdir]
    exact h.cr3 hk
  · intro c' hcc
    rw [curenv, hcpu hcc]
    exact h.asleep hcc
  · have : ((k'.setCurenv c none).cpus c).cpuStatus = (k'.cpus c).cpuStatus := by
      simp [setCurenv, setCpu]
    rw [this, hf.cpuStatus_eq]
    exact h.awake
  · intro e' he'
    exact absurd rfl (hcur' he').1

theorem Since.setCurenv (h : Since c k₀ k) (v : Option EnvIx) :
    Since c k₀ (k.setCurenv c v) :=
  h.extend (fun hne => Function.update_of_ne hne _ _) (fun _ _ => id) [] rfl (by simp)

end

end Jos.Kern
