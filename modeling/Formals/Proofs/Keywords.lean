import Formals.Proofs.BareCalls
import Formals.Proofs.RestOrder

/-!
# Keywords

A call matches the keywords that it is given with the keyword parameters (`keywords_matched`). Only
the outermost level raises errors about keywords: neither an expression nor a group does
(`Param.Fails.keywordError`). A keyword parameter finds the keyword hash without the keywords that
were taken before it (`Shape.entries_opened`), and where the hash is checked all keyword parameters
had their turns (`Shape.unknown`).
-/

namespace Formals

open Machine

/-! ## Errors about keywords -/

/-- Whether an error is about a keyword. -/
def RuntimeError.isKeywordError : RuntimeError → Bool
  | .missingKeyword _ | .unknownKeywords _ => true
  | _ => false

/-- What the values of an expression can be at fault for is not about a keyword. -/
theorem RuntimeError.isKeywordError_eq_false {e : RuntimeError} (h : e.isValueError) :
    e.isKeywordError = false := by
  cases e <;> first | rfl | cases h

/-- An expression raises no error about a keyword. -/
theorem Expr.eval_keywordError {e : Expr} {t t' : Trail} {err : RuntimeError}
    (h : e.eval t = .error err t') : err.isKeywordError = false := by
  rcases eval_error h with h | ⟨_, rfl, -⟩
  · exact RuntimeError.isKeywordError_eq_false h
  · rfl

namespace Act

variable {t t' : Trail} {e : RuntimeError}

/-- Writing an attribute raises no error about a keyword. -/
theorem writeAttr_keywordError {receiver : Expr} {writer : String} {v : Value}
    (h : writeAttr receiver writer v t = .error e t') : e.isKeywordError = false := by
  rcases bind_eq_error.1 h with h | ⟨target, t₁, -, h⟩
  · exact Expr.eval_keywordError h
  rcases bind_eq_error.1 h with h | ⟨_, t₂, -, h⟩
  · exact RuntimeError.isKeywordError_eq_false (send_error h)
  · cases h

/-- Nothing is left over where the keyword hash is dropped and no keyword rest has taken it. -/
theorem hashAt_of_unstage {s : LevelState} {k : Nat} {u : Unit} (h : unstage s k t = .ok u t')
    (hs : s.keywordsStaged = true) (hseen : s.keywordRestSeen = false) :
    t.heap.hashAt k = [] := by
  rw [unstage, if_pos ⟨hs, by rw [hseen]; exact Bool.false_ne_true⟩] at h
  unfold checkKeywords inspect read at h
  split at h
  · rename_i hx
    simp only at hx
    split at hx
    · rename_i hempty
      exact List.isEmpty_iff.1 hempty
    · cases hx
  · cases h

end Act

/-! ## Parameters that raise errors about keywords -/

/-- A parameter raises no error about a keyword where no keyword hash is staged. -/
def Param.Unkeyed (p : Param) : Prop :=
  ∀ ⦃s q k t e⦄, s.keywordsStaged = false → p.Fails s q k t e → e.isKeywordError = false

/-- A level in a group raises no error about a keyword. -/
theorem levelAct_keywordError {ps : List Param} {q : Nat} {t t' : Trail} {e : RuntimeError}
    (hacc : Param.AllAccepted true ps) (hp : ∀ p ∈ ps, p.Unkeyed)
    (h : levelAct (Param.tasks true ps) q t = .error e t') : e.isKeywordError = false := by
  obtain ⟨hsteps, hfinal⟩ := hacc.unstaged
  rcases levelAct_error h with h | ⟨k₁, t₁, -, hu⟩
  · obtain ⟨before, s, p, after, k₁, t₁, hsplit, -, hfails⟩ := steps_error h
    have hmem : (s, p) ∈ (Plan.ofList Param.part ps).steps := hsplit ▸ by simp
    exact hp p (Plan.mem_of_mem_ofList hmem) (hsteps _ hmem) hfails
  · exact absurd hu (Act.unstage_of_unstaged hfinal)

/-- A parameter in a group raises no error about a keyword. -/
theorem Param.unkeyed (p : Param) (hacc : p.Accepted true) : p.Unkeyed := by
  induction p with
  | group children span ih =>
    intro s q k t e hs h
    cases h with
    | leftOver _ hu => exact absurd hu (Act.unstage_of_unstaged hs)
    | elements he => exact RuntimeError.isKeywordError_eq_false (isValueError_elements he)
    | group _ hlevel =>
      exact levelAct_keywordError hacc.2
        (fun p hp => ih p hp (Param.allAccepted_iff.1 hacc.2 p hp)) hlevel
  | required name span | rest name span =>
    intro s q k t e hs h
    cases h with
    | leftOver _ hu => exact absurd hu (Act.unstage_of_unstaged hs)
  | optional name default span =>
    intro s q k t e hs h
    cases h with
    | leftOver _ hu => exact absurd hu (Act.unstage_of_unstaged hs)
    | optional _ hv => exact Expr.eval_keywordError hv
  | attr receiver writer span =>
    intro s q k t e hs h
    cases h with
    | leftOver _ hu => exact absurd hu (Act.unstage_of_unstaged hs)
    | attr hw => exact Act.writeAttr_keywordError hw
  | keyword | keywordRest => cases hacc

/-- **Errors about keywords.** A parameter raises an error about a keyword because keywords are left
over where it has its turn, or because its own keyword is missing. -/
theorem Param.Fails.keywordError {p : Param} {s : LevelState} {q k : Nat} {t : Trail}
    {e : RuntimeError} (hacc : p.Accepted false) (h : p.Fails s q k t e)
    (he : e.isKeywordError = true) :
    (p.isKeyword = false ∧ ∃ t', Act.unstage s k t = .error e t') ∨
      ∃ name span k₁ t₁, p = .keyword name none span ∧ e = .missingKeyword name ∧
        Act.ensureStaged s q k t = .ok k₁ t₁ ∧ (t₁.heap.hashAt k₁).get? (.sym name) = none := by
  have hnot : e.isKeywordError ≠ false := by rw [he]; decide
  cases h with
  | leftOver hk hu => exact .inl ⟨hk, _, hu⟩
  | missing hs hnone heq => exact .inr ⟨_, _, _, _, rfl, heq, hs, hnone⟩
  | optional _ hv | keyword _ _ hv => exact absurd (Expr.eval_keywordError hv) hnot
  | elements hv =>
    exact absurd (RuntimeError.isKeywordError_eq_false (isValueError_elements hv)) hnot
  | group _ hlevel =>
    have hp := fun p hp => Param.unkeyed p (Param.allAccepted_iff.1 hacc.2 p hp)
    exact absurd (levelAct_keywordError hacc.2 hp hlevel) hnot
  | attr hw => exact absurd (Act.writeAttr_keywordError hw) hnot

/-! ## Where the keyword hash is checked -/

/-- Whether the keyword rest had its turn. -/
theorem Param.seen_after (s : LevelState) (p : Param) :
    (s.after p.part).keywordRestSeen = (s.keywordRestSeen || decide (p.part = .keywordRest)) := by
  cases p <;> simp [part, LevelState.after, LevelState.unstage, LevelState.flip, LevelState.stage,
    LevelState.seeKeywordRest]

/-- Behind some steps the keyword rest was seen exactly if it is one of theirs. -/
theorem Plan.Linked.seen {s final : LevelState} {steps : List (LevelState × Param)}
    (hl : Plan.Linked Param.part s steps final) : final.keywordRestSeen =
      (s.keywordRestSeen || steps.any fun step => step.2.part = .keywordRest) := by
  induction steps generalizing s with
  | nil =>
    obtain ⟨side, rfl⟩ := hl
    exact (Bool.or_false _).symm
  | cons step steps ih =>
    obtain ⟨⟨side, hside⟩, hl⟩ := hl
    rw [ih hl, Param.seen_after, hside, List.any_cons, Bool.or_assoc]

/-- A step finds the keyword rest seen exactly if it is one of the steps before. -/
theorem Plan.Linked.seen_step {s s' final : LevelState} {p : Param}
    {front back : List (LevelState × Param)}
    (hl : Plan.Linked Param.part s (front ++ (s', p) :: back) final) : s'.keywordRestSeen =
      (s.keywordRestSeen || front.any fun step => step.2.part = .keywordRest) := by
  obtain ⟨mid, hfront, ⟨side, rfl⟩, -⟩ := hl.append
  exact hfront.seen

/-- Nothing takes from the keyword hash any more once it was dropped, if it is staged only once. -/
theorem Plan.Linked.isKeyword_eq_false {s final : LevelState} {steps : List (LevelState × Param)}
    (hl : Plan.Linked Param.part s steps final) (hs : s.keywordsStaged = false)
    (hstaged : ∀ step ∈ steps, step.2.isKeyword = true → step.1.keywordsStaged = true) :
    ∀ step ∈ steps, step.2.isKeyword = false := by
  induction steps generalizing s with
  | nil => exact nofun
  | cons step steps ih =>
    obtain ⟨⟨side, hside⟩, hl⟩ := hl
    have hfirst : step.2.isKeyword = false := by
      rw [Bool.eq_false_iff]
      intro hk
      have := hstaged step List.mem_cons_self hk
      rw [hside] at this
      rw [show s.keywordsStaged = true from this] at hs
      cases hs
    rintro step' (_ | ⟨_, hmem⟩)
    · exact hfirst
    · exact ih hl ((Param.staged_after _ _).trans hfirst)
        (fun step h => hstaged step (List.mem_cons_of_mem _ h)) step' hmem

/-- The task of a parameter that takes no keyword begins where the keyword hash is dropped. -/
theorem Param.unstage_of_task {localOnly : Bool} {s : LevelState} {q k k' : Nat} {t t' : Trail}
    {p : Param} (hk : p.isKeyword = false) (h : (p.task localOnly).run s q k t = .ok k' t') :
    ∃ t₁, Act.unstage s k t = .ok () t₁ := by
  cases p with
  | keyword | keywordRest => cases hk
  | _ =>
    obtain ⟨_, t₁, hu, -⟩ := bind_eq_ok.1 h
    exact ⟨t₁, hu⟩

section

variable {h₀ : Heap} {base q k k' : Nat} {steps : List (LevelState × Param)} {s s' : LevelState}
  {hand : Hand} {t t' : Trail} {p : Param} {localOnly : Bool}

/-- What a level finds in the keyword hash that it checks: what is left in the hand. -/
theorem Holds.entries_eq_nil (hh : Holds base q k hand t) (hnil : t.heap.hashAt k = []) :
    hand.entries = [] := by
  cases hk : hand.keywords with
  | none => rw [Hand.entries, hk]; rfl
  | some entries =>
    rw [Hand.entries, hk]
    exact (hh.keywords entries hk).2.2.symm.trans hnil

/-- Once the keyword hash was dropped nothing is left of it, unless a keyword rest has taken it. -/
theorem Running.cleared {final : LevelState} (hr : Running h₀ base q steps s k hand t)
    (hl : Plan.Linked Param.part s steps final)
    (hseen : ∀ step ∈ steps, step.1.keywordRestSeen = false)
    (hclear : s.keywordsStaged = false → hand.entries = [])
    (h : Act.steps q (stepTasks localOnly steps) k t = .ok k' t') :
    final.keywordsStaged = false → (hand.finish h₀ (turnsOf steps)).entries = [] := by
  induction steps generalizing s k hand t with
  | nil =>
    obtain ⟨side, rfl⟩ := hl
    exact hclear
  | cons step steps ih =>
    obtain ⟨s', p⟩ := step
    obtain ⟨⟨side, hside⟩, hl⟩ := hl
    obtain ⟨k₁, t₁, hfirst, hrest⟩ := steps_cons_ok h
    refine ih (hr.step hfirst).1 hl (fun step hmem => hseen step (List.mem_cons_of_mem _ hmem))
      (fun hstaged => ?_) hrest
    have hk : p.isKeyword = false := (Param.staged_after s' p).symm.trans hstaged
    rw [Hand.entries, Hand.keywords_after hk]
    cases hs : s'.keywordsStaged with
    | false => exact hclear (by rw [← hs, hside])
    | true =>
      obtain ⟨t₂, hu⟩ := Param.unstage_of_task hk hfirst
      exact hr.holds.entries_eq_nil (Act.hashAt_of_unstage hu hs (hseen _ List.mem_cons_self))

end

/-! ## The keywords of a level -/

/-- The keywords that are given and that no parameter takes. -/
def Level.undeclared (l : Level) : Entries Key Value :=
  l.keywords.filter fun e => e.1 ∉ l.params.filterMap Param.key?

/-- Why a level may raise an error about a keyword: a keyword that is required was not given, or all
of them were given, and others that no parameter declares, where no keyword rest takes them. -/
inductive Level.Refuses (l : Level) : RuntimeError → Prop
  | missing {name : String} {span : Span} : .keyword name none span ∈ l.params →
      Key.sym name ∉ l.keywords.keys → Refuses l (.missingKeyword name)
  | unknown {names : List String} : (∀ p ∈ l.params, p.part ≠ .keywordRest) →
      (∀ name span, .keyword name none span ∈ l.params → Key.sym name ∈ l.keywords.keys) →
      names.map Key.sym = l.undeclared.keys → Refuses l (.unknownKeywords names)

namespace Shape

variable {ps : List Param} (shape : Shape Param.part ps) (h : Heap) (xs : List Value)

/-- A parameter that takes from the keyword hash finds the keywords that were not taken before. -/
theorem entries_opened {a b : List (Side × Param)} {side : Side} {p : Param}
    (hk : p.isKeyword = true) (hturns : shape.turns = a ++ (side, p) :: b) :
    ((Hand.finish h ⟨xs, none⟩ a).opened h).entries =
      Hand.erasing (a.map Prod.snd) (Level.mk ps h xs).keywords := by
  obtain ⟨st⟩ := shape.exists_stages
  have hno : ∀ {part : Part}, p.part = part → part = .keyword ∨ part = .keywordRest := by
    rintro part rfl
    by_contra hor
    rw [Param.isKeyword_eq_false rfl (not_or.1 hor)] at hk
    cases hk
  rw [st.turns_eq] at hturns
  rcases split_cases hturns with ⟨c, hl, -⟩ | ⟨a, rfl, h₁⟩
  · obtain ⟨pre, post, hleading, -⟩ := split_sided hl
    simpa using hno (shape.part_leading p (by simp [hleading]))
  rcases split_cases h₁ with ⟨c, he, -⟩ | ⟨a, rfl, h₂⟩
  · simpa using hno (st.part_rest (side, p) (by simp [he]))
  rcases split_cases h₂ with ⟨c, hh, -⟩ | ⟨a, rfl, h₃⟩
  · obtain ⟨pre, post, hhashed, rfl, -⟩ := split_sided hh
    have hkeyword : ∀ q ∈ pre ++ p :: post, q.isKeyword = true := fun q hq =>
      shape.isKeyword_hashed q (st.hashed_perm.mem_iff.1 (hhashed ▸ hq))
    have hne : shape.hashed ≠ [] := fun hnil => by
      have hperm := st.hashed_perm
      rw [hnil, hhashed] at hperm
      simpa using hperm.eq_nil
    rw [Hand.erasing, st.keys_front, snd_sided, Hand.finish_append, shape.finish_leading,
      Hand.finish_append, Hand.finish_rests fun turn hturn =>
        st.part_rest turn (List.mem_append_left _ hturn),
      Hand.opened_finish_hashed fun q hq => hkeyword q (by simp [hq]), shape.opened_start h xs hne]
    rfl
  · have := st.isKeyword_behind (side, p) (by rw [h₃]; simp)
    rw [hk] at this
    cases this

end Shape

/-- The keys of a hash that is taken for a keyword hash are symbols. -/
theorem Level.symbol_keywords (l : Level) : ∀ key ∈ l.keywords.keys, key.symbol?.isSome := by
  unfold Level.keywords Level.hash? stagedHash?
  intro key hkey
  split at hkey
  · split at hkey
    · split at hkey
      · rename_i hall
        obtain ⟨e, he, rfl⟩ := List.mem_map.1 hkey
        exact List.all_eq_true.1 hall e he
      · cases hkey
    · cases hkey
  · cases hkey

/-- The names of keys that are symbols. -/
theorem map_keyName {keys : List Key} (h : ∀ key ∈ keys, key.symbol?.isSome) :
    (keys.map keyName).map Key.sym = keys := by
  rw [List.map_map]
  refine (List.map_congr_left fun key hkey => ?_).trans (List.map_id keys)
  have := h key hkey
  cases key <;> first | rfl | cases this

/-- What is given is declared or undeclared. -/
theorem Level.keys_undeclared_eq_nil {l : Level} (h : l.undeclared = []) :
    ∀ key ∈ l.keywords.keys, key ∈ l.params.filterMap Param.key? := by
  intro key hkey
  obtain ⟨e, he, rfl⟩ := List.mem_map.1 hkey
  have := List.filter_eq_nil_iff.1 h e he
  simpa using this

/-! ## The runs of a level -/

section

variable {ps : List Param} {localOnly : Bool} {h₀ : Heap} {base q k : Nat} {xs : List Value}
  {t t₁ : Trail} {front back : List (LevelState × Param)} (shape : Shape Param.part ps)
  (hr : Running h₀ base q (Plan.ofList Param.part ps).steps {} 0 ⟨xs, none⟩ t)
  (hn : (Level.mk ps h₀ xs).keywords.keys.Nodup)
  (hfront : Act.steps q (stepTasks localOnly front) 0 t = .ok k t₁)

include shape hr hn hfront

/-- What a keyword parameter finds when it has its turn. -/
theorem Shape.entries_step {s : LevelState} {p : Param} (hk : p.isKeyword = true)
    (hsplit : (Plan.ofList Param.part ps).steps = front ++ (s, p) :: back) :
    ∃ s₁ hand, Running h₀ base q ((s, p) :: back) s₁ k hand t₁ ∧
      (hand.opened h₀).entries = (Level.mk ps h₀ xs).keywords.filter
        fun e => e.1 ∉ (front.map Prod.snd).filterMap Param.key? := by
  have hturns : shape.turns = turnsOf front ++ (s.side, p) :: turnsOf back := by
    rw [← shape.turns_eq.1, Plan.turns, hsplit, List.map_append]
    rfl
  rw [hsplit] at hr
  obtain ⟨s₁, hr₁, -⟩ := hr.run hfront
  refine ⟨s₁, _, hr₁, ?_⟩
  rw [shape.entries_opened h₀ xs hk hturns, Hand.erasing_eq_filter hn, snd_turnsOf]

/-- A required keyword that had its turn was given. -/
theorem Shape.mem_required (hsplit : (Plan.ofList Param.part ps).steps = front ++ back)
    {name : String} {span : Span} (hmem : Param.keyword name none span ∈ front.map Prod.snd) :
    Key.sym name ∈ (Level.mk ps h₀ xs).keywords.keys := by
  obtain ⟨⟨s, p⟩, hstep, rfl⟩ := List.mem_map.1 hmem
  obtain ⟨f, g, rfl⟩ := List.append_of_mem hstep
  obtain ⟨k₁, t₂, hf, hrest⟩ := steps_append_ok hfront
  obtain ⟨k₂, t₃, htask, -⟩ := steps_cons_ok hrest
  rw [List.append_assoc, List.cons_append] at hsplit
  obtain ⟨s₁, hand, hr₁, hopened⟩ := shape.entries_step hr hn hf rfl hsplit
  cases Param.task_ok htask with
  | keywordGiven hs hv _ =>
    have hsome := (Act.takeKeyword_ok hv).1
    rw [hr₁.hashAt_opened rfl hs, hopened] at hsome
    by_contra hnot
    rw [Entries.get?_eq_none fun hin => hnot ?_] at hsome
    · cases hsome
    · obtain ⟨e, he, hkey⟩ := List.mem_map.1 hin
      exact List.mem_map.2 ⟨e, List.mem_of_mem_filter he, hkey⟩

/-- A keyword that is missing when it has its turn was not given. -/
theorem Shape.not_mem_missing (hnames : (Param.allNames ps).Nodup) {s : LevelState} {name : String}
    {default : Option Expr} {span : Span} (hsplit : (Plan.ofList Param.part ps).steps =
      front ++ (s, .keyword name default span) :: back) {k₁ : Nat} {t₂ : Trail}
    (he : Act.ensureStaged s q k t₁ = .ok k₁ t₂)
    (hnone : (t₂.heap.hashAt k₁).get? (.sym name) = none) :
    Key.sym name ∉ (Level.mk ps h₀ xs).keywords.keys := by
  intro hmem
  obtain ⟨s₁, hand, hr₁, hopened⟩ := shape.entries_step hr hn hfront rfl hsplit
  rw [hr₁.hashAt_opened rfl he, hopened] at hnone
  have hfree : Key.sym name ∉ (front.map Prod.snd).filterMap Param.key? := fun hin => by
    have hperm := (shape.steps_perm.flatMap_right Param.names).nodup_iff.2
      (Param.allNames_eq ps ▸ hnames)
    rw [hsplit, List.map_append, List.flatMap_append, List.map_cons, List.flatMap_cons] at hperm
    refine (List.nodup_append.1 hperm).2.2 name ?_ name (by simp [Param.names]) rfl
    rw [← Param.allNames_eq]
    exact Param.key_mem hin
  obtain ⟨e, hmem, hkey⟩ := List.mem_map.1 hmem
  have hkept : Key.sym name ∈ Entries.keys ((Level.mk ps h₀ xs).keywords.filter
      fun e => e.1 ∉ (front.map Prod.snd).filterMap Param.key?) :=
    List.mem_map.2 ⟨e, List.mem_filter.2 ⟨hmem, decide_eq_true (hkey ▸ hfree)⟩, hkey⟩
  have hsome := Entries.isSome_get? hkept
  rw [hnone] at hsome
  cases hsome

/-- Behind all parameters that take from it, the keyword hash holds what no parameter declares. -/
theorem Shape.hashAt_behind (hsplit : (Plan.ofList Param.part ps).steps = front ++ back)
    (hback : ∀ step ∈ back, step.2.isKeyword = false)
    (hkeyed : ∃ step ∈ front, step.2.isKeyword = true) :
    t₁.heap.hashAt k = (Level.mk ps h₀ xs).undeclared := by
  have hrunning := hr
  rw [hsplit] at hrunning
  obtain ⟨s₁, hr₁, -⟩ := hrunning.run hfront
  obtain ⟨step, hstep, hk⟩ := hkeyed
  have hturn : (step.1.side, step.2) ∈ turnsOf front := List.mem_map_of_mem hstep
  have hsome : (Hand.finish h₀ ⟨xs, none⟩ (turnsOf front)).keywords.isSome :=
    Hand.isSome_finish_of_keyword hturn hk
  obtain ⟨entries, hentries⟩ := Option.isSome_iff_exists.1 hsome
  have hbehind : ∀ turn ∈ turnsOf back, turn.2.isKeyword = false := fun turn hturn => by
    obtain ⟨step, hstep, rfl⟩ := List.mem_map.1 hturn
    exact hback step hstep
  have hturns : shape.turns = turnsOf front ++ turnsOf back := by
    rw [← shape.turns_eq.1, Plan.turns, hsplit, List.map_append]
    rfl
  -- the turns behind do not change the hash, so it is what is left of it in the end
  have hall := shape.entries_finish h₀ xs hn
  rw [hturns, Hand.finish_append, Hand.entries, Hand.keywords_finish hbehind, hentries] at hall
  exact (hr₁.holds.keywords entries hentries).2.2.trans hall

/-- **Unknown keywords.** Where the keyword hash is checked, behind all keyword parameters, it holds
what no parameter declares. -/
theorem Shape.unknown (hsplit : (Plan.ofList Param.part ps).steps = front ++ back)
    (hback : ∀ step ∈ back, step.2.isKeyword = false) (hkeyword : ∃ p ∈ ps, p.isKeyword = true)
    {s : LevelState} {e : RuntimeError} {t' : Trail}
    (hseen : s.keywordRestSeen = front.any fun step => step.2.part = .keywordRest)
    (hu : Act.unstage s k t₁ = .error e t') : (Level.mk ps h₀ xs).Refuses e := by
  obtain ⟨⟨-, hunseen⟩, -, rfl⟩ := Act.unstage_error hu
  have hin : ∀ p ∈ ps, p.isKeyword = true → p ∈ front.map Prod.snd := fun p hp hk => by
    have hmem := shape.steps_perm.mem_iff.2 hp
    rw [hsplit, List.map_append, List.mem_append] at hmem
    refine hmem.resolve_right fun hmem => ?_
    obtain ⟨step, hstep, rfl⟩ := List.mem_map.1 hmem
    rw [hback step hstep] at hk
    cases hk
  refine .unknown (fun p hp hpart => ?_) (fun name span hp => ?_) ?_
  · -- no keyword rest had its turn, since the hash would not be checked then
    obtain ⟨step, hstep, rfl⟩ := List.mem_map.1 (hin p hp (by rw [Param.isKeyword, hpart]; rfl))
    rw [hunseen] at hseen
    exact List.any_eq_false.1 hseen.symm step hstep (decide_eq_true hpart)
  · exact shape.mem_required hr hn hfront hsplit (hin _ hp rfl)
  · obtain ⟨p, hp, hk⟩ := hkeyword
    obtain ⟨step, hstep, rfl⟩ := List.mem_map.1 (hin p hp hk)
    rw [shape.hashAt_behind hr hn hfront hsplit hback ⟨step, hstep, hk⟩]
    refine map_keyName fun key hkey => (Level.mk ps h₀ xs).symbol_keywords key ?_
    obtain ⟨e, he, rfl⟩ := List.mem_map.1 hkey
    exact List.mem_map.2 ⟨e, List.mem_of_mem_filter he, rfl⟩

end

/-- **Errors of a level.** A level raises an error about a keyword only for one of these reasons. -/
theorem Shape.keywordError {ps : List Param} {localOnly : Bool} {h₀ : Heap} {base q : Nat}
    {xs : List Value} {t t' : Trail} {e : RuntimeError} (shape : Shape Param.part ps)
    (hr : Running h₀ base q (Plan.ofList Param.part ps).steps {} 0 ⟨xs, none⟩ t)
    (hn : (Level.mk ps h₀ xs).keywords.keys.Nodup) (hacc : ∀ p ∈ ps, p.Accepted false)
    (hnames : (Param.allNames ps).Nodup) (hkeyword : ∃ p ∈ ps, p.isKeyword = true)
    (h : levelAct (Param.tasks localOnly ps) q t = .error e t') (he : e.isKeywordError = true) :
    (Level.mk ps h₀ xs).Refuses e := by
  have hl := Plan.linked_ofList Param.part ps
  rcases levelAct_error h with hsteps | ⟨k, t₁, hsteps, hu⟩
  · obtain ⟨front, s, p, back, k, t₁, hsplit, hfront, hfails⟩ := steps_error hsteps
    have hp : p ∈ ps := Plan.mem_of_mem_ofList (hsplit ▸ by simp :
      (s, p) ∈ (Plan.ofList Param.part ps).steps)
    rcases hfails.keywordError (hacc p hp) he with
      ⟨hk, t₂, hu⟩ | ⟨name, span, k₁, t₂, rfl, rfl, hs, hnone⟩
    · -- the hash was dropped in front of a parameter that takes no keyword
      have hrunning := hr
      rw [hsplit] at hl hrunning
      obtain ⟨s₁, hr₁, -⟩ := hrunning.run hfront
      obtain ⟨_, ⟨side, hside⟩, hlinked⟩ := hr₁.linked
      have hstaged : s₁.keywordsStaged = true := by
        have := (Act.unstage_error hu).1.1
        rwa [hside] at this
      have hback := hlinked.isKeyword_eq_false ((Param.staged_after s p).trans hk)
        fun step hstep hk => hr₁.staged.later step (List.mem_cons_of_mem _ hstep) hk
          (hr₁.staged.held hstaged)
      refine shape.unknown hr hn hfront hsplit ?_ hkeyword hl.seen_step hu
      rintro step (_ | ⟨_, hstep⟩)
      · exact hk
      · exact hback step hstep
    · exact .missing hp (shape.not_mem_missing hr hn hfront hnames hsplit hs hnone)
  · -- the hash was dropped at the end
    exact shape.unknown hr hn hsteps (List.append_nil _).symm nofun hkeyword hl.seen hu

/-- A level that goes well leaves no keyword that is not declared, unless a keyword rest takes them
all. -/
theorem Shape.undeclared_eq_nil {ps : List Param} {localOnly : Bool} {h₀ : Heap} {base q : Nat}
    {xs : List Value} {t t' : Trail} {u : Unit} (shape : Shape Param.part ps)
    (hr : Running h₀ base q (Plan.ofList Param.part ps).steps {} 0 ⟨xs, none⟩ t)
    (hn : (Level.mk ps h₀ xs).keywords.keys.Nodup) (hrest : ∀ p ∈ ps, p.part ≠ .keywordRest)
    (h : levelAct (Param.tasks localOnly ps) q t = .ok u t') :
    (Level.mk ps h₀ xs).undeclared = [] := by
  have hl := Plan.linked_ofList Param.part ps
  have hnone : ∀ {steps : List (LevelState × Param)},
      (∀ step ∈ steps, step ∈ (Plan.ofList Param.part ps).steps) →
      (steps.any fun step => step.2.part = .keywordRest) = false := fun hsub =>
    List.any_eq_false.2 fun step hstep => by
      simpa using hrest _ (Plan.mem_of_mem_ofList (hsub step hstep))
  rw [levelAct_eq] at h
  obtain ⟨k, t₁, hsteps, hu⟩ := bind_eq_ok.1 h
  have hfinal := (hr.finish hsteps).1
  have hturns : turnsOf (Plan.ofList Param.part ps).steps = shape.turns := shape.turns_eq.1
  have hcleared := hr.cleared hl (fun step hstep => by
    obtain ⟨front, back, hsplit⟩ := List.append_of_mem hstep
    rw [hsplit] at hl
    rw [hl.seen_step, hnone fun step hmem => hsplit ▸ List.mem_append_left _ hmem]
    rfl) (fun _ => rfl) hsteps
  rw [hturns] at hfinal hcleared
  show List.filter _ _ = _
  rw [← shape.entries_finish h₀ xs hn]
  cases hs : (Plan.ofList Param.part ps).final.keywordsStaged with
  | false => exact hcleared hs
  | true =>
    refine hfinal.entries_eq_nil (Act.hashAt_of_unstage hu hs ?_)
    rw [hl.seen, hnone fun _ h => h]
    rfl

/-! ## Calls -/

/-- The keywords that are given fit the keyword parameters: those that are required are given, and
those that are given are declared, unless a keyword rest takes the others. -/
structure Level.Fits (l : Level) : Prop where
  required : ∀ name span, .keyword name none span ∈ l.params → Key.sym name ∈ l.keywords.keys
  declared : (∀ p ∈ l.params, p.part ≠ .keywordRest) →
    ∀ key ∈ l.keywords.keys, key ∈ l.params.filterMap Param.key?

/-- The keyword parameters are bound in an environment: to the values that are given, to the values
that their defaults push, and the keyword rest to what no parameter declares. -/
structure Level.KeywordsBound (l : Level) (pushed : Evaluated → Prop) (env : Env) : Prop where
  given : ∀ name default span v, .keyword name default span ∈ l.params →
    l.keywords.get? (.sym name) = some v → env.local? name = some v
  absent : ∀ name default span, .keyword name (some default) span ∈ l.params →
    l.keywords.get? (.sym name) = none →
    ∃ v, env.local? name = some v ∧ pushed ⟨name, default, v⟩
  rest : ∀ name span, .keywordRest (some name) span ∈ l.params →
    ∃ b, env.local? name = some (.hash b) ∧ env.heap.hashAt b = l.undeclared

/-- A call matches the keywords that it is given with the keyword parameters of a level: it ends
well only if they fit, and then it binds the parameters to them, and it raises an error about a
keyword only for a good reason. -/
structure Level.Matched (l : Level) (pushed : Evaluated → Prop)
    (outcome : EStateM.Result RuntimeError Machine Unit) : Prop where
  onSuccess : ∀ m', outcome = .ok () m' → l.Fits ∧ l.KeywordsBound pushed m'.toEnv
  onError : ∀ e m', outcome = .error e m' → e.isKeywordError → l.Refuses e

/-- The shares of the keyword parameters. -/
theorem Level.keywordsBound_of_allBound {o : Outcome} {l : Level}
    (h : Param.AllBound o l [] l.params) (hcounts : ∀ n ∈ Param.allNames l.params, o.counts n) :
    l.KeywordsBound o.pushed o.finish ∧ ∀ name span, .keyword name none span ∈ l.params →
      Key.sym name ∈ l.keywords.keys := by
  have hbound : ∀ p ∈ l.params, ∃ pre, p.Bound o (l.share pre p) := fun p hp => by
    obtain ⟨pre, post, hsplit⟩ := List.append_of_mem hp
    exact ⟨_, Param.bound_of_allBound h hsplit⟩
  have hname : ∀ {name : String} {p : Param}, p ∈ l.params → name ∈ p.names → o.counts name :=
    fun hp hn => hcounts _ (Param.mem_allNames hp hn)
  refine ⟨⟨fun name default span v hp hv => ?_, fun name default span hp hv => ?_,
    fun name span hp => ?_⟩, fun name span hp => ?_⟩
  · obtain ⟨pre, hb⟩ := hbound _ hp
    rw [Level.share, hv] at hb
    obtain ⟨w, hw, rfl⟩ := hb (hname hp (List.mem_singleton_self name))
    exact hw
  · obtain ⟨pre, hb⟩ := hbound _ hp
    rw [Level.share, hv] at hb
    exact hb (hname hp (List.mem_singleton_self name))
  · obtain ⟨pre, hb⟩ := hbound _ hp
    obtain ⟨v, hv, b, rfl, hat⟩ := hb name rfl (hname hp (by simp [Param.names]))
    exact ⟨b, hv, hat⟩
  · obtain ⟨pre, hb⟩ := hbound _ hp
    by_contra hnot
    rw [Level.share, Entries.get?_eq_none hnot] at hb
    obtain ⟨_, _, hfalse⟩ := hb (hname hp (List.mem_singleton_self name))
    exact hfalse

/-- **Keywords.** The call of a compiled stream matches the keywords that it is given with the
keyword parameters, if all parameters have names of their own. -/
theorem keywords_matched {list : Option ParamList} {localOnly : Bool} {code : Stream}
    {ps : List Param} {arguments : List Value} {m : Machine}
    (hc : ParamList.compile? list localOnly = .ok code) (hps : ParamList.check? list = .ok ps)
    (hnames : (Param.allNames ps).Nodup) (hkeyword : ∃ p ∈ ps, p.isKeyword = true)
    (hsound : m.heap.Sound) (hargs : ∀ v ∈ arguments, v.Within m.heap) :
    (Level.mk ps m.heap arguments).Matched (Pushes 0 code (entered (fun _ => arguments) m))
      (bindArguments code arguments m) := by
  obtain ⟨ps', hps', hr⟩ := compile_params_realizes hc
  obtain rfl : ps' = ps := Except.ok.inj (hps'.symm.trans hps)
  obtain ⟨hacc, hall⟩ := ParamList.check?_accepted hps
  obtain ⟨shape⟩ := exists_shape hacc
  have hrunning := shape.running_entered m.toEnv arguments fun _ => ⟨hsound, hargs⟩
  have hn : (Level.mk ps' m.heap arguments).keywords.keys.Nodup :=
    Level.nodup_keywords arguments fun _ => hsound
  refine ⟨fun m' hrun => ?_, fun e m' hrun he => ?_⟩
  · have hcall : call code (fun _ => arguments) m = .ok () m' := hrun
    obtain ⟨t, hact, -, -⟩ := act_of_call hr hcall
    obtain ⟨hbound, hrequired⟩ := Level.keywordsBound_of_allBound
      (bindArguments_bound hc hps (fun _ => ⟨hsound, hargs⟩) hrun)
      fun n hmem => List.count_eq_one_of_mem hnames hmem
    exact ⟨⟨hrequired, fun hrest => Level.keys_undeclared_eq_nil
      (shape.undeclared_eq_nil hrunning hn hrest hact)⟩, hbound⟩
  · have hcall : call code (fun _ => arguments) m = .error e m' := hrun
    obtain ⟨t, hact⟩ := act_of_call_error hr hcall
    exact shape.keywordError hrunning hn (Param.allAccepted_iff.1 hall) hnames hkeyword hact he

/-- `(a, k:, l: 1)` is compiled. A call with a number and a hash with `k` ends well, one with `k`
and `z` does not know `z`, and both match the keywords. -/
theorem simple_keywords_matched : ∃ code ps m,
    ParamList.compile? (some ⟨[.required "a" {}, .keyword "k" none {},
      .keyword "l" (some (.int 1)) {}], {}⟩) true = .ok code ∧
    ParamList.check? (some ⟨[.required "a" {}, .keyword "k" none {},
      .keyword "l" (some (.int 1)) {}], {}⟩) = .ok ps ∧
    m.heap = { hashes := #[[(.sym "k", .int 4)], [(.sym "k", .nil), (.sym "z", .nil)]] } ∧
    (∃ m', bindArguments code [.int 1, .hash 0] m = .ok () m') ∧
    (∃ m', bindArguments code [.int 1, .hash 1] m = .error (.unknownKeywords ["z"]) m') ∧
    ∀ b < 2, (Level.mk ps m.heap [.int 1, .hash b]).Matched
      (Pushes 0 code (entered (fun _ => [.int 1, .hash b]) m))
      (bindArguments code [.int 1, .hash b] m) := by
  have hcode : ParamList.compile? (some ⟨[.required "a" {}, .keyword "k" none {},
      .keyword "l" (some (.int 1)) {}], {}⟩) true =
      .ok [⟨.arrayShift, {}⟩, ⟨.localSet "a" true, {}⟩,
        ⟨.stageKeywords, {}⟩, ⟨.takeKeyword "k", {}⟩, ⟨.localSet "k" true, {}⟩,
        ⟨.hasKeyword "l", {}⟩, ⟨.ifTrue, {}⟩, ⟨.takeKeyword "l", {}⟩, ⟨.orElse, {}⟩,
        ⟨.pushInt 1, {}⟩, ⟨.endIf, {}⟩, ⟨.localSet "l" true, {}⟩, ⟨.checkKeywords, {}⟩,
        ⟨.pop, {}⟩, ⟨.pop, {}⟩] := by
    cbv
  have hcheck : ParamList.check? (some ⟨[.required "a" {}, .keyword "k" none {},
      .keyword "l" (some (.int 1)) {}], {}⟩) = .ok [.required "a" {}, .keyword "k" none {},
        .keyword "l" (some (.int 1)) {}] := by
    cbv
  have hsound : Heap.Sound
      { hashes := #[[(.sym "k", .int 4)], [(.sym "k", .nil), (.sym "z", .nil)]] } := by
    refine ⟨by simp, fun entries he => ?_⟩
    rcases (by simpa using he : entries = _ ∨ entries = _) with rfl | rfl
    · exact List.pairwise_singleton _ _
    · decide
  refine ⟨_, _, ⟨{ heap := _, selfValue := .nil }, [], 0⟩, hcode, hcheck, rfl, ⟨_, by cbv⟩,
    ⟨_, by cbv⟩, fun b hb => ?_⟩
  refine keywords_matched hcode hcheck (by decide) ⟨.keyword "k" none {}, by simp, rfl⟩ hsound
    fun v hv => ?_
  rcases (by simpa using hv : v = .int 1 ∨ v = .hash b) with rfl | rfl
  · exact trivial
  · exact hb

end Formals
