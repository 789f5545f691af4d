import Jos.User.ShellToken

/-! The stores of `runcmd` (`user/sh.c`) into its two arrays. -/

namespace Jos.User

open Kern

def maxargs : Nat := 16
def bufsiz : Nat := 1024

inductive Store
  | argv (i : Nat)
  | argv0buf (i : Nat)

def Store.Inside : Store → Prop
  | argv i => i < maxargs
  | argv0buf i => i < bufsiz

/-- The locals of `runcmd`; `answers` is what `open`, `pipe` and `fork` will return, in order. -/
structure ShCmd where
  tok : Tok
  answers : List Int
  argc : Nat
  argv : Nat → Nat

/-- `strcpy(argv0buf + i, src)` -/
def strcpyStores (m : Nat → Byte) : Nat → Nat → Nat → Option (List Store)
  | 0, _, _ => none
  | fuel + 1, src, i =>
    if m src = 0 then some [.argv0buf i]
    else do
      let rest ← strcpyStores m fuel (src + 1) (i + 1)
      some (.argv0buf i :: rest)

def ShCmd.runit (fuel : Nat) (c : ShCmd) : Option (List Store) :=
  if c.argc = 0 then some []
  else if c.tok.mem (c.argv 0) ≠ chr '/' then do
    let copied ← strcpyStores c.tok.mem fuel (c.argv 0) 1
    some (.argv0buf 0 :: copied ++ [.argv 0, .argv c.argc])
  else some [.argv c.argc]

/-- The loop, from a call of `gettoken` on. A run stops early at `exit` and `panic`. -/
def ShCmd.loop (fuel : Nat) : Nat → ShCmd → Option (List Store)
  | 0, _ => none
  | n + 1, c => do
    let (r, tok) ← gettoken fuel c.tok
    if r.1 = chr 'w' then
      if c.argc = maxargs then some []
      else do
        let rest ← ShCmd.loop fuel n
          { c with tok := tok, argv := Function.update c.argv c.argc r.2, argc := c.argc + 1 }
        some (.argv c.argc :: rest)
    else if r.1 = chr '<' ∨ r.1 = chr '>' then do
      let (r, tok) ← gettoken fuel tok
      if r.1 ≠ chr 'w' then some []
      else if c.answers.headD 0 < 0 then some []
      else ShCmd.loop fuel n { c with tok := tok, answers := c.answers.tail }
    else if r.1 = chr '|' then
      if c.answers.headD 0 < 0 then some []
      else if c.answers.tail.headD 0 < 0 then some []
      else if c.answers.tail.headD 0 = 0 then
        ShCmd.loop fuel n { c with tok := tok, answers := c.answers.tail.tail, argc := 0 }
      else ShCmd.runit fuel { c with tok := tok }
    else if r.1 = 0 then ShCmd.runit fuel { c with tok := tok }
    else some []

/-- `runcmd(s)`; what the arrays hold at first is arbitrary. -/
def runcmd (fuel : Nat) (answers : List Int) (argv : Nat → Nat) (st : Tok) (s : Nat) :
    Option (List Store) := do
  let tok ← gettokenAt fuel s st
  ShCmd.loop fuel fuel ⟨tok, answers, 0, argv⟩

def argvStores (args : List (List Byte)) : List Store :=
  match args with
  | [] => []
  | w :: _ =>
    if w.head? = some (chr '/') then [.argv args.length]
    else .argv0buf 0 :: (List.range' 1 (w.length + 1)).map .argv0buf ++ [.argv 0, .argv args.length]

def tokenStores : List Int → List Token → List (List Byte) → List Store
  | _, [], args => argvStores args
  | answers, .word w :: ts, args =>
    if args.length = maxargs then []
    else .argv args.length :: tokenStores answers ts (args ++ [w])
  | answers, .symbol c :: ts, args =>
    if c = chr '<' ∨ c = chr '>' then
      match ts with
      | .word _ :: ts => if answers.headD 0 < 0 then [] else tokenStores answers.tail ts args
      | _ => []
    else if c = chr '|' then
      if answers.headD 0 < 0 then []
      else if answers.tail.headD 0 < 0 then []
      else if answers.tail.headD 0 = 0 then tokenStores answers.tail.tail ts []
      else argvStores args
    else []

/-- The shell gets to run a command with the arguments `as` on a line with these tokens, with
`args` read before them. -/
inductive Runs : List (List Byte) → List Token → List (List Byte) → Prop
  | last (args) : Runs args [] args
  | word {args w ts as} : args.length < maxargs → Runs (args ++ [w]) ts as → Runs args (.word w :: ts) as
  | redirect {args c w ts as} : c = chr '<' ∨ c = chr '>' → Runs args ts as →
    Runs args (.symbol c :: .word w :: ts) as
  | left (args ts) : Runs args (.symbol (chr '|') :: ts) args
  | right {args ts as} : Runs [] ts as → Runs args (.symbol (chr '|') :: ts) as

/-- The arguments leave room for the null pointer, and the name for the `/` and the NUL. -/
def Roomy (args : List (List Byte)) : Prop :=
  args.length < maxargs ∧ ∀ w ∈ args.head?, w.head? = some (chr '/') ∨ w.length + 1 < bufsiz

def Token.Sound (n : Nat) : Token → Prop
  | word w => w.length ≤ n
  | symbol c => c ∈ symbols

theorem tokens_sound {cs : List Byte} {n : Nat} (hn : cs.length ≤ n) : ∀ t ∈ tokens cs, t.Sound n := by
  induction cs using tokens.induct with
  | case1 => rw [tokens]; rintro t ⟨⟩
  | case2 x cs hx ih =>
    rw [tokens, if_pos hx]
    exact ih (Nat.le_of_succ_le hn)
  | case3 x cs hx hs ih =>
    rw [tokens, if_neg hx, if_pos hs]
    have hc : x ∈ symbols := of_decide_eq_true hs
    exact List.forall_mem_cons.mpr ⟨hc, ih (Nat.le_of_succ_le hn)⟩
  | case4 x cs hx hs ih =>
    rw [tokens, if_neg hx, if_neg hs]
    have hd := List.length_dropWhile_le ordinary cs
    have ht := (@List.takeWhile_prefix _ cs ordinary).length_le
    rw [List.length_cons] at hn
    exact List.forall_mem_cons.mpr ⟨(Nat.succ_le_succ ht).trans hn, ih (by omega)⟩

theorem tokens_length (cs : List Byte) : (tokens cs).length ≤ cs.length := by
  induction cs using tokens.induct with
  | case1 => rw [tokens]; exact Nat.le_refl 0
  | case2 x cs hx ih => rw [tokens, if_pos hx]; exact Nat.le_succ_of_le ih
  | case3 x cs hx hs ih => rw [tokens, if_neg hx, if_pos hs]; exact Nat.succ_le_succ ih
  | case4 x cs hx hs ih =>
    rw [tokens, if_neg hx, if_neg hs]
    exact Nat.succ_le_succ (ih.trans (List.length_dropWhile_le ordinary cs))

variable {fuel e : Nat} {answers : List Int} {args : List (List Byte)} {ts : List Token}

theorem strcpyStores_eq {m : Nat → Byte} {src i : Nat} {w : List Byte} (h : CString m src w)
    (hf : w.length < fuel) :
    strcpyStores m fuel src i = some ((List.range' i (w.length + 1)).map .argv0buf) := by
  induction w generalizing fuel src i with
  | nil =>
    obtain ⟨fuel, rfl⟩ := Nat.exists_eq_succ_of_ne_zero (Nat.ne_of_gt hf)
    rw [strcpyStores, if_pos (show m src = 0 from h.nul)]
    rfl
  | cons c w ih =>
    obtain ⟨fuel, rfl⟩ := Nat.exists_eq_succ_of_ne_zero (Nat.ne_zero_of_lt hf)
    have ht : CString m (src + 1) w := by
      have := h.tail
      rwa [List.length_cons, ← Nat.add_assoc, Nat.add_right_comm] at this
    rw [strcpyStores, h.head.1, if_neg h.head.2, ih ht (Nat.succ_lt_succ_iff.mp hf)]
    rfl

structure ShCmd.Holds (fuel : Nat) (c : ShCmd) (args : List (List Byte)) : Prop where
  argc : c.argc = args.length
  name : ∀ w ∈ args.head?, w.length < fuel ∧ c.tok.Told (some (.word w)) (chr 'w', c.argv 0)

theorem ShCmd.Holds.runit {c : ShCmd} (h : c.Holds fuel args) : c.runit fuel = some (argvStores args) := by
  rw [ShCmd.runit, h.argc]
  cases args with
  | nil => rfl
  | cons w args =>
    obtain ⟨hlen, ⟨-, hw⟩, -⟩ := h.name w rfl
    rw [if_neg (List.length_cons ▸ Nat.succ_ne_zero _), argvStores, strcpyStores_eq hw hlen]
    have hname : c.tok.mem (c.argv 0) = chr '/' ↔ w.head? = some (chr '/') := by
      cases w with
      | nil =>
        rw [show c.tok.mem (c.argv 0) = 0 from hw.nul]
        decide
      | cons x w =>
        rw [hw.head.1, List.head?_cons, Option.some_inj]
    by_cases hs : w.head? = some (chr '/')
    · rw [if_pos hs, if_neg (not_not.mpr (hname.mpr hs))]
    · rw [if_neg hs, if_pos (mt hname.mp hs)]
      rfl

theorem ShCmd.Holds.look {c : ShCmd} {tok : Tok} (answers : List Int) (h : c.Holds fuel args)
    (hl : c.tok.Looks e tok) : ShCmd.Holds fuel { c with tok := tok, answers := answers } args :=
  ⟨h.argc, fun w hw => ⟨(h.name w hw).1, hl.told (h.name w hw).2⟩⟩

theorem ShCmd.Holds.push {c : ShCmd} {tok : Tok} {r : Byte × Nat} {w : List Byte} (h : c.Holds fuel args)
    (hl : c.tok.Looks e tok) (ht : tok.Told (some (.word w)) r) (hw : w.length < fuel) :
    ShCmd.Holds fuel { c with tok := tok, argv := Function.update c.argv c.argc r.2, argc := c.argc + 1 }
      (args ++ [w]) := by
  refine ⟨by rw [List.length_append, h.argc]; rfl, fun x hx => ?_⟩
  obtain ⟨⟨hr, hs⟩, hset⟩ := ht
  cases args with
  | nil =>
    cases hx
    have h0 : c.argc = 0 := h.argc
    simp only [h0, Function.update_self]
    exact ⟨hw, ⟨rfl, hs⟩, hset⟩
  | cons y args =>
    obtain ⟨hlen, hy⟩ := h.name x hx
    have h0 : (0 : Nat) ≠ c.argc := by rw [h.argc]; exact (Nat.succ_ne_zero _).symm
    simp only [Function.update_of_ne h0]
    exact ⟨hlen, hl.told hy⟩

theorem ShCmd.loop_eq {n : Nat} {c : ShCmd} (ha : Ahead e c.tok ts) (he : e < fuel) (hn : ts.length < n)
    (hts : ∀ t ∈ ts, t.Sound e) (h : c.Holds fuel args) :
    c.loop fuel n = some (tokenStores c.answers ts args) := by
  induction n generalizing c ts args with
  | zero => exact absurd hn (Nat.not_lt_zero _)
  | succ n ih =>
    obtain ⟨tok, htok, ha', hl, ht⟩ := gettoken_spec ha he
    rw [ShCmd.loop, htok, Option.bind_eq_bind, Option.bind_some]
    dsimp only
    cases ts with
    | nil =>
      rw [show c.tok.nc = 0 from ht, if_neg (by decide), if_neg (by decide), if_neg (by decide),
        if_pos rfl, (h.look c.answers hl).runit, tokenStores]
    | cons t ts =>
      obtain ⟨hsound, hts'⟩ := List.forall_mem_cons.mp hts
      have hn' := Nat.succ_lt_succ_iff.mp hn
      cases t with
      | word w =>
        have hc : c.tok.nc = chr 'w' := ht.1.1
        rw [hc] at ht
        rw [if_pos hc, tokenStores, h.argc]
        by_cases hmax : args.length = maxargs
        · rw [if_pos hmax, if_pos hmax]
        · rw [if_neg hmax, if_neg hmax, ← h.argc,
            ih ha' hn' hts' (h.push hl ht (Nat.lt_of_le_of_lt hsound he))]
          rfl
      | symbol x =>
        have hc : c.tok.nc = x := ht
        have hx : x ∈ symbols := hsound
        have hxw : x ≠ chr 'w' := fun hw => by rw [hw] at hx; exact absurd hx (by decide)
        have hx0 : x ≠ 0 := fun hw => by rw [hw] at hx; exact absurd hx (by decide)
        rw [hc, if_neg hxw, tokenStores.eq_def]
        dsimp only
        by_cases hred : x = chr '<' ∨ x = chr '>'
        · rw [if_pos hred, if_pos hred]
          obtain ⟨tok2, htok2, ha2, hl2, ht2⟩ := gettoken_spec ha' he
          rw [htok2, Option.bind_some]
          dsimp only
          cases ts with
          | nil => rw [show tok.nc = 0 from ht2, if_pos (by decide)]
          | cons t ts =>
            obtain ⟨hsound2, hts2⟩ := List.forall_mem_cons.mp hts'
            cases t with
            | word w =>
              have hw : tok.nc = chr 'w' := ht2.1.1
              rw [if_neg (not_not.mpr hw)]
              split
              · rfl
              · exact ih ha2 (Nat.lt_of_succ_lt hn') hts2 ((h.look c.answers hl).look _ hl2)
            | symbol y =>
              have hy : y ∈ symbols := hsound2
              rw [show tok.nc = y from ht2,
                if_pos (fun hw => by rw [hw] at hy; exact absurd hy (by decide))]
        · rw [if_neg hred, if_neg hred, if_neg hx0, (h.look c.answers hl).runit,
            @ih [] _ _ ha' hn' hts' ⟨rfl, by rintro w ⟨⟩⟩]
          split_ifs <;> rfl

theorem runcmd_eq {s : Nat} {cs : List Byte} {st : Tok} (argv : Nat → Nat) (hs : s ≠ 0)
    (h : CString st.mem s cs) (hf : s + cs.length < fuel) :
    runcmd fuel answers argv st s = some (tokenStores answers (tokens cs) []) := by
  have hlen : cs.length < fuel := Nat.lt_of_le_of_lt (Nat.le_add_left _ s) hf
  obtain ⟨tok, htok, ha, -⟩ := gettokenAt_spec st hs h hlen
  rw [runcmd, htok]
  exact ShCmd.loop_eq ha hf (Nat.lt_of_le_of_lt (tokens_length cs) hlen)
    (tokens_sound (Nat.le_add_left _ s)) ⟨rfl, by rintro w ⟨⟩⟩

theorem argvStores_inside (h : Roomy args) : ∀ x ∈ argvStores args, x.Inside := by
  cases args with
  | nil => rintro x ⟨⟩
  | cons w args =>
    obtain ⟨hlen, hname⟩ := h
    rw [argvStores]
    split_ifs with hw
    · exact List.forall_mem_singleton.mpr hlen
    · have hroom := (hname w rfl).resolve_left hw
      intro x hx
      rw [List.cons_append, List.mem_cons, List.mem_append, List.mem_map] at hx
      rcases hx with rfl | ⟨i, hi, rfl⟩ | hx
      · exact Nat.zero_lt_of_lt hroom
      · rw [List.mem_range'_1] at hi
        exact Nat.lt_of_lt_of_le hi.2 (by omega)
      · rw [List.mem_pair] at hx
        rcases hx with rfl | rfl
        · exact Nat.zero_lt_of_lt hlen
        · exact hlen

theorem roomy_of_inside (h : ∀ x ∈ argvStores args, x.Inside) : Roomy args := by
  cases args with
  | nil => exact ⟨by decide, by rintro w ⟨⟩⟩
  | cons w args =>
    rw [argvStores] at h
    split_ifs at h with hw
    · exact ⟨h _ List.mem_cons_self, by rintro x ⟨⟩; exact .inl hw⟩
    · refine ⟨h (.argv _) (List.mem_append_right _ (by simp)), ?_⟩
      rintro x ⟨⟩
      refine .inr (h (.argv0buf (w.length + 1)) (List.mem_append_left _ (List.mem_cons_of_mem _
        (List.mem_map_of_mem (List.mem_range'_1.mpr ⟨by omega, by omega⟩)))))

theorem Runs.stores {as : List (List Byte)} (h : Runs args ts as) :
    ∃ answers, ∀ x ∈ argvStores as, x ∈ tokenStores answers ts args := by
  induction h with
  | last args => exact ⟨[], fun x hx => hx⟩
  | word hlt _ ih =>
    obtain ⟨answers, ih⟩ := ih
    refine ⟨answers, fun x hx => ?_⟩
    rw [tokenStores, if_neg (Nat.ne_of_lt hlt)]
    exact List.mem_cons_of_mem _ (ih x hx)
  | redirect hc _ ih =>
    obtain ⟨answers, ih⟩ := ih
    refine ⟨0 :: answers, fun x hx => ?_⟩
    rw [tokenStores, if_pos hc]
    exact ih x hx
  | left args ts =>
    refine ⟨[0, 1], fun x hx => ?_⟩
    rw [tokenStores.eq_def]
    exact hx
  | right _ ih =>
    obtain ⟨answers, ih⟩ := ih
    refine ⟨0 :: 0 :: answers, fun x hx => ?_⟩
    rw [tokenStores.eq_def]
    exact ih x hx

theorem tokenStores_inside (hargs : args.length ≤ maxargs) (h : ∀ as, Runs args ts as → Roomy as) :
    ∀ x ∈ tokenStores answers ts args, x.Inside := by
  fun_induction tokenStores answers ts args with
  | case1 answers args => exact argvStores_inside (h args (.last args))
  | case3 answers w ts args hmax ih =>
    have hlt := Nat.lt_of_le_of_ne hargs hmax
    exact List.forall_mem_cons.mpr ⟨hlt, ih (by rw [List.length_append]; exact hlt) fun as ha =>
      h as (.word hlt ha)⟩
  | case5 answers c args hc w ts hopen ih => exact ih hargs fun as ha => h as (.redirect hc ha)
  | case9 answers ts args hc hpipe hfork hchild ih =>
    exact ih (Nat.zero_le _) fun as ha => h as (.right ha)
  | case10 answers ts args hc hpipe hfork hchild => exact argvStores_inside (h args (.left args ts))
  | _ => rintro x ⟨⟩

/-- The stores stay inside the arrays, whatever the system calls answer, if and only if every
command on the line that the shell gets to has fewer than `MAXARGS` words, and a name that
starts with `/` or leaves two bytes of `argv0buf`. -/
theorem runcmd_inside_iff (fuel s : Nat) (cs : List Byte) (st : Tok) (argv : Nat → Nat) (hs : s ≠ 0)
    (h : CString st.mem s cs) (hf : s + cs.length < fuel) :
    (∀ answers, ∃ stores, runcmd fuel answers argv st s = some stores ∧ ∀ x ∈ stores, x.Inside) ↔
      ∀ args, Runs [] (tokens cs) args → Roomy args := by
  constructor
  · intro hin args hr
    obtain ⟨answers, hsub⟩ := hr.stores
    obtain ⟨stores, hrun, hin⟩ := hin answers
    rw [runcmd_eq argv hs h hf] at hrun
    cases hrun
    exact roomy_of_inside fun x hx => hin x (hsub x hx)
  · exact fun hroomy answers => ⟨_, runcmd_eq argv hs h hf, tokenStores_inside (Nat.zero_le _) hroomy⟩

theorem runcmd_ls :
    CString (fun a => [0, chr 'l', chr 's'].getD a 0) 1 [chr 'l', chr 's'] ∧
      ((∀ answers, ∃ stores, runcmd 4 answers (fun _ => 0)
          ⟨0, 0, 0, fun a => [0, chr 'l', chr 's'].getD a 0⟩ 1 = some stores ∧ ∀ x ∈ stores, x.Inside) ↔
        ∀ args, Runs [] (tokens [chr 'l', chr 's']) args → Roomy args) :=
  ⟨⟨rfl, by decide, rfl, by decide⟩,
    runcmd_inside_iff 4 1 _ ⟨0, 0, 0, _⟩ _ (by decide) ⟨rfl, by decide, rfl, by decide⟩ (by decide)⟩

def sixteenWords (a : Nat) : Byte :=
  if a = 0 ∨ 31 < a then 0 else if a % 2 = 1 then chr 'a' else chr ' '

/-- The null pointer after sixteen arguments is stored behind the array. -/
theorem runcmd_sixteen_words : ∃ stores, runcmd 33 [] (fun _ => 0) ⟨0, 0, 0, sixteenWords⟩ 1 = some stores ∧
    Store.argv 16 ∈ stores ∧ ¬ (Store.argv 16).Inside :=
  ⟨(List.range 16).map .argv ++ [.argv0buf 0, .argv0buf 1, .argv0buf 2, .argv 0, .argv 16], by rfl,
    by simp, Nat.lt_irrefl 16⟩

end Jos.User
