import Mathlib.Data.List.Chain
import Mathlib.Data.List.DropRight
import BranchBound.Strategy.Names

/-!
# Canonical names of strategies

Normalizing a name is a projection onto the canonical names: names in lower case whose words are
joined by single underscores, with no blank at either end. It changes the case of letters and what
stands between words, and nothing else.

* `Text.Trimmed`: texts that trimming leaves alone (`Text.trim_eq_self`, `Text.trimmed_trim`).
* `StrategyName.Canonical`: the canonical names.
* `StrategyName.canonical_normalize`, `StrategyName.normalize_eq_self_iff`: normalizing gives a
  canonical name, and leaves exactly these alone.
* `StrategyName.letters_normalize`: apart from separators the name stays, in lower case.
* `StrategyName.ReadsCanonically`: a name is read as its canonical form is, and a refusal quotes the
  name as it was given.
* `normalize_projects`: all of it, for the names of rules, orders and simplex variants.
-/

namespace BranchBound

/-! ## Blanks at the ends -/

namespace Text

variable {cs : List Char}

/-- Neither the first nor the last character is blank. -/
structure Trimmed (cs : List Char) : Prop where
  first : ∀ c ∈ cs.head?, isBlank c = false
  last : ∀ c ∈ cs.getLast?, isBlank c = false

theorem trim_eq_rdropWhile (cs : List Char) :
    trim cs = (cs.dropWhile isBlank).rdropWhile isBlank := rfl

/-- A trimmed text has nothing to be cut off. -/
theorem trim_eq_self (h : Trimmed cs) : trim cs = cs := by
  have hfirst : cs.dropWhile isBlank = cs := by
    cases cs with
    | nil => rfl
    | cons c cs => rw [List.dropWhile_cons, h.first c rfl, if_neg Bool.false_ne_true]
  rw [trim_eq_rdropWhile, hfirst, List.rdropWhile_eq_self_iff]
  intro hne
  rw [h.last _ (List.getLast?_eq_some_getLast hne)]
  exact Bool.false_ne_true

/-- Cutting off blanks at the start and then at the end leaves none at either. -/
theorem trimmed_trim (cs : List Char) : Trimmed (trim cs) where
  first c hc := by
    rw [trim_eq_rdropWhile] at hc
    -- what is cut off at the end leaves the first character in its place
    have hfirst : c ∈ (cs.dropWhile isBlank).head? := by
      obtain ⟨rest, hrest⟩ := List.rdropWhile_prefix isBlank (l := cs.dropWhile isBlank)
      rw [← hrest, List.head?_append_of_ne_nil _ (List.ne_nil_of_mem (List.mem_of_mem_head? hc))]
      exact hc
    have hnot := List.head?_dropWhile_not isBlank cs
    rw [Option.mem_def.mp hfirst] at hnot
    exact hnot
  last c hc := by
    rw [trim_eq_rdropWhile] at hc
    obtain ⟨hne, rfl⟩ := List.mem_getLast?_eq_getLast hc
    exact Bool.eq_false_iff.mpr (List.rdropWhile_last_not isBlank _ hne)

end Text

namespace StrategyName

open Text (isBlank Trimmed trim)

/-! ## Characters -/

/-- Characters of canonical names. -/
def Plain (c : Char) : Prop := c.isUpper = false ∧ c ≠ ' ' ∧ c ≠ '-'

/-- Two characters that are not both underscores. -/
def Apart (a b : Char) : Prop := a = '_' → b ≠ '_'

theorem isSeparator_iff {c : Char} : isSeparator c = true ↔ c = ' ' ∨ c = '-' ∨ c = '_' := by
  simp [isSeparator, or_assoc]

theorem plain_underscore : Plain '_' := ⟨rfl, by decide, by decide⟩

theorem plain_of_not_isSeparator {c : Char} (hsep : ¬ isSeparator c = true)
    (hupper : ¬ c.isUpper = true) : Plain c := by
  rw [isSeparator_iff, not_or, not_or] at hsep
  exact ⟨Bool.eq_false_iff.mpr hupper, hsep.1, hsep.2.1⟩

/-- A plain character is an underscore or no separator at all. -/
theorem Plain.eq_underscore {c : Char} (h : Plain c) (hsep : isSeparator c = true) : c = '_' := by
  rcases isSeparator_iff.mp hsep with hc | hc | hc
  · exact absurd hc h.2.1
  · exact absurd hc h.2.2
  · exact hc

/-- The capital letters by their numbers. -/
theorem isUpper_iff {c : Char} : c.isUpper = true ↔ 65 ≤ c.toNat ∧ c.toNat ≤ 90 :=
  decide_eq_true_iff.trans (and_congr UInt32.le_iff_toNat_le UInt32.le_iff_toNat_le)

/-- The small letters by their numbers. -/
theorem isLower_iff {c : Char} : c.isLower = true ↔ 97 ≤ c.toNat ∧ c.toNat ≤ 122 :=
  Bool.and_eq_true_iff.trans (and_congr (decide_eq_true_iff.trans UInt32.le_iff_toNat_le)
    (decide_eq_true_iff.trans UInt32.le_iff_toNat_le))

theorem toLower_of_not_isUpper {c : Char} (h : ¬ c.isUpper = true) : c.toLower = c :=
  dif_neg fun hcapital => h (decide_eq_true hcapital)

/-- Lower case moves a capital by 32 places. -/
theorem toNat_toLower {c : Char} (h : c.isUpper = true) : c.toLower.toNat = c.toNat + 32 := by
  have hle := (isUpper_iff.mp h).2
  have hlower : c.toLower.val = c.val + ('a'.val - 'A'.val) :=
    congrArg Char.val (dif_pos (of_decide_eq_true h))
  rw [Char.toNat, hlower, UInt32.toNat_add]
  exact Nat.mod_eq_of_lt (by simp; omega)

/-- A capital in lower case is a small letter. -/
theorem isLower_toLower {c : Char} (h : c.isUpper = true) : c.toLower.isLower = true := by
  obtain ⟨hge, hle⟩ := isUpper_iff.mp h
  rw [isLower_iff, toNat_toLower h]
  omega

/-- A small letter is no capital. -/
theorem not_isUpper_of_isLower {c : Char} (h : c.isLower = true) : ¬ c.isUpper = true := by
  rw [isLower_iff] at h
  rw [isUpper_iff]
  omega

/-- A small letter is neither a separator nor a blank. -/
theorem not_isSeparator_of_isLower {c : Char} (h : c.isLower = true) : ¬ isSeparator c = true := by
  rw [isSeparator_iff]
  rintro (rfl | rfl | rfl) <;> exact absurd h (by decide)

/-- No small letter is blank. -/
theorem isBlank_of_isLower {c : Char} (h : c.isLower = true) : isBlank c = false := by
  obtain ⟨hge, hle⟩ := isLower_iff.mp h
  simp only [isBlank, Bool.or_eq_false_iff, Bool.and_eq_false_iff, decide_eq_false_iff_not,
    beq_eq_false_iff_ne]
  omega

theorem plain_of_isLower {c : Char} (h : c.isLower = true) : Plain c :=
  plain_of_not_isSeparator (not_isSeparator_of_isLower h) (not_isUpper_of_isLower h)

/-- A capital in lower case stays as it is. -/
theorem toLower_toLower {c : Char} (h : c.isUpper = true) : c.toLower.toLower = c.toLower :=
  toLower_of_not_isUpper (not_isUpper_of_isLower (isLower_toLower h))

theorem ne_underscore_of_not_isSeparator {c : Char} (hsep : ¬ isSeparator c = true) : c ≠ '_' :=
  fun h => hsep (isSeparator_iff.mpr (.inr (.inr h)))

theorem toLower_ne_underscore {c : Char} (h : c.isUpper = true) : c.toLower ≠ '_' :=
  ne_underscore_of_not_isSeparator (not_isSeparator_of_isLower (isLower_toLower h))

theorem apart_of_ne {a : Char} (b : Char) (ha : a ≠ '_') : Apart a b := fun h => absurd h ha

/-- A text without two underscores in a row, as a chain. -/
theorem isChain_apart_iff {cs : List Char} : cs.IsChain Apart ↔ ¬ ['_', '_'] <:+: cs := by
  rw [List.isChain_iff_forall_rel_of_append_cons_cons]
  constructor
  · rintro h ⟨before, after, hcs⟩
    rw [List.append_assoc] at hcs
    exact h hcs.symm rfl rfl
  · rintro h a b before after hcs rfl rfl
    exact h ⟨before, after, by rw [hcs, List.append_assoc]; rfl⟩

/-! ## Joining words -/

section JoinWords

variable {underscore small : Bool} {cs : List Char}

/-- Joining writes plain characters only. -/
theorem plain_joinWords : ∀ c ∈ joinWords underscore small cs, Plain c := by
  fun_induction joinWords underscore small cs with
  | case1 => exact fun _ hc => (List.not_mem_nil hc).elim
  | case2 small c cs hsep ih => exact ih
  | case3 underscore small c cs hsep hnot ih =>
    exact List.forall_mem_cons.mpr ⟨plain_underscore, ih⟩
  | case4 underscore c cs hsep hupper ih =>
    exact List.forall_mem_cons.mpr
      ⟨plain_underscore, List.forall_mem_cons.mpr ⟨plain_of_isLower (isLower_toLower hupper), ih⟩⟩
  | case5 underscore small c cs hsep hupper hnot ih =>
    exact List.forall_mem_cons.mpr ⟨plain_of_isLower (isLower_toLower hupper), ih⟩
  | case6 underscore small c cs hsep hupper ih =>
    exact List.forall_mem_cons.mpr ⟨plain_of_not_isSeparator hsep hupper, ih⟩

/-- After an underscore comes none, whether it is in the text so far or in the rest. A small letter
is no underscore, so the two flags are never set together. -/
theorem isChain_joinWords (hflags : small = true → underscore = false) :
    (underscore = true → ∀ c ∈ (joinWords underscore small cs).head?, c ≠ '_') ∧
      (joinWords underscore small cs).IsChain Apart := by
  fun_induction joinWords underscore small cs with
  | case1 => exact ⟨fun _ _ hc => (Option.not_mem_none _ hc).elim, .nil⟩
  | case2 small c cs hsep ih => exact ih nofun
  | case3 underscore small c cs hsep hnot ih =>
    obtain ⟨hhead, hchain⟩ := ih nofun
    exact ⟨fun h => absurd h hnot, List.isChain_cons.mpr ⟨fun c hc _ => hhead rfl c hc, hchain⟩⟩
  | case4 underscore c cs hsep hupper ih =>
    have hlower := toLower_ne_underscore hupper
    refine ⟨fun h => absurd (hflags rfl) (by rw [h]; exact Bool.noConfusion), ?_⟩
    refine List.isChain_cons_cons.mpr ⟨fun _ => hlower, ?_⟩
    exact List.isChain_cons.mpr ⟨fun d _ => apart_of_ne d hlower, (ih nofun).2⟩
  | case5 underscore small c cs hsep hupper hnot ih =>
    have hlower := toLower_ne_underscore hupper
    refine ⟨fun _ d hd => ?_, List.isChain_cons.mpr ⟨fun d _ => apart_of_ne d hlower, (ih nofun).2⟩⟩
    cases hd
    exact hlower
  | case6 underscore small c cs hsep hupper ih =>
    have hne := ne_underscore_of_not_isSeparator hsep
    refine ⟨fun _ d hd => ?_,
      List.isChain_cons.mpr ⟨fun d _ => apart_of_ne d hne, (ih fun _ => rfl).2⟩⟩
    cases hd
    exact hne

/-- No text begins with a blank that did not before: its first character is kept, in lower case, or
is an underscore. -/
theorem first_joinWords (hcs : ∀ c ∈ cs.head?, isBlank c = false) :
    ∀ c ∈ (joinWords false small cs).head?, isBlank c = false := by
  cases cs with
  | nil => exact fun c hc => (Option.not_mem_none c hc).elim
  | cons c cs =>
    rw [joinWords, if_neg Bool.false_ne_true]
    split
    · rintro d ⟨⟩
      rfl
    split
    · rename_i hupper
      split
      · rintro d ⟨⟩
        rfl
      · rintro d ⟨⟩
        exact isBlank_of_isLower (isLower_toLower hupper)
    · rintro d ⟨⟩
      exact hcs c rfl

theorem last_of_cons {c : Char} (h : ∀ e ∈ (c :: cs).getLast?, isBlank e = false) :
    ∀ e ∈ cs.getLast?, isBlank e = false := fun e he => h e (List.mem_getLast?_cons he)

/-- Nor does a text end with one. If no more than separators are left after an underscore, nothing
comes after the character `d` before them. -/
theorem last_joinWords {d : Char} (hd : underscore = true ∨ cs = [] → isBlank d = false)
    (hcs : ∀ c ∈ cs.getLast?, isBlank c = false) :
    ∀ c ∈ (d :: joinWords underscore small cs).getLast?, isBlank c = false := by
  fun_induction joinWords underscore small cs generalizing d with
  | case1 =>
    rintro c ⟨⟩
    exact hd (.inr rfl)
  | case2 small c cs hsep ih =>
    exact ih (fun _ => hd (.inl rfl)) (last_of_cons hcs)
  | case3 underscore small c cs hsep hnot ih =>
    rw [List.getLast?_cons_cons]
    exact ih (fun _ => rfl) (last_of_cons hcs)
  | case4 underscore c cs hsep hupper ih =>
    rw [List.getLast?_cons_cons, List.getLast?_cons_cons]
    exact ih (fun _ => isBlank_of_isLower (isLower_toLower hupper)) (last_of_cons hcs)
  | case5 underscore small c cs hsep hupper hnot ih =>
    rw [List.getLast?_cons_cons]
    exact ih (fun _ => isBlank_of_isLower (isLower_toLower hupper)) (last_of_cons hcs)
  | case6 underscore small c cs hsep hupper ih =>
    rw [List.getLast?_cons_cons]
    refine ih (fun h => ?_) (last_of_cons hcs)
    rcases h with h | rfl
    · exact absurd h Bool.false_ne_true
    · exact hcs c rfl

/-- A trimmed text stays trimmed when its words are joined. -/
theorem trimmed_joinWords (h : Trimmed cs) : Trimmed (joinWords false small cs) where
  first := first_joinWords h.first
  last c hc := last_joinWords (d := '_') (fun _ => rfl) h.last c (List.mem_getLast?_cons hc)

/-- Plain characters without two underscores in a row have nothing to be joined or lowered. -/
theorem joinWords_eq_self (hplain : ∀ c ∈ cs, Plain c) (hchain : cs.IsChain Apart)
    (hhead : underscore = true → ∀ c ∈ cs.head?, c ≠ '_') :
    joinWords underscore small cs = cs := by
  induction cs generalizing underscore small with
  | nil => rfl
  | cons c cs ih =>
    obtain ⟨hc, hcs⟩ := List.forall_mem_cons.mp hplain
    obtain ⟨hnext, hchain⟩ := List.isChain_cons.mp hchain
    rw [joinWords]
    by_cases hsep : isSeparator c = true
    · have hc := hc.eq_underscore hsep
      have hnot : ¬ underscore = true := fun h => hhead h c rfl hc
      rw [if_pos hsep, if_neg hnot, ih hcs hchain fun _ d hd => hnext d hd hc, hc]
    · rw [if_neg hsep, if_neg (Bool.eq_false_iff.mp hc.1),
        ih hcs hchain fun h => absurd h Bool.false_ne_true]

/-- The characters of a name that do not separate words, in lower case. -/
def letters (cs : List Char) : List Char := (cs.filter (!isSeparator ·)).map Char.toLower

theorem letters_cons_of_isSeparator {c : Char} (hsep : isSeparator c = true) (cs : List Char) :
    letters (c :: cs) = letters cs := by
  rw [letters, List.filter_cons_of_neg (by rw [hsep]; exact Bool.false_ne_true), letters]

theorem letters_cons_of_not_isSeparator {c : Char} (hsep : ¬ isSeparator c = true)
    (cs : List Char) : letters (c :: cs) = c.toLower :: letters cs := by
  rw [letters, List.filter_cons_of_pos (by rw [Bool.eq_false_iff.mpr hsep]; rfl), List.map_cons,
    letters]

/-- Joining keeps everything but separators, in lower case. -/
theorem letters_joinWords : letters (joinWords underscore small cs) = letters cs := by
  fun_induction joinWords underscore small cs with
  | case1 => rfl
  | case2 small c cs hsep ih => rw [ih, letters_cons_of_isSeparator hsep]
  | case3 underscore small c cs hsep hnot ih =>
    rw [letters_cons_of_isSeparator rfl, ih, letters_cons_of_isSeparator hsep]
  | case4 underscore c cs hsep hupper ih =>
    have hlower := not_isSeparator_of_isLower (isLower_toLower hupper)
    rw [letters_cons_of_isSeparator rfl, letters_cons_of_not_isSeparator hlower, ih,
      letters_cons_of_not_isSeparator hsep, toLower_toLower hupper]
  | case5 underscore small c cs hsep hupper hnot ih =>
    have hlower := not_isSeparator_of_isLower (isLower_toLower hupper)
    rw [letters_cons_of_not_isSeparator hlower, ih, letters_cons_of_not_isSeparator hsep,
      toLower_toLower hupper]
  | case6 underscore small c cs hsep hupper ih =>
    rw [letters_cons_of_not_isSeparator hsep, ih, letters_cons_of_not_isSeparator hsep]

end JoinWords

/-! ## Canonical names -/

/-- Names in lower case with single underscores between words, and no blank at either end. -/
structure Canonical (cs : List Char) : Prop where
  plain : ∀ c ∈ cs, c.isUpper = false ∧ c ≠ ' ' ∧ c ≠ '-'
  single : ¬ ['_', '_'] <:+: cs
  trimmed : Trimmed cs

variable {name : String}

/-- Every normalized name is canonical. -/
theorem canonical_normalize (name : String) : Canonical (normalize name).toList := by
  rw [normalize, String.toList_ofList]
  exact ⟨plain_joinWords, isChain_apart_iff.mp (isChain_joinWords fun _ => rfl).2,
    trimmed_joinWords (Text.trimmed_trim _)⟩

theorem normalize_of_canonical (h : Canonical name.toList) : normalize name = name := by
  rw [normalize, Text.trim_eq_self h.trimmed,
    joinWords_eq_self h.plain (isChain_apart_iff.mpr h.single) fun h => absurd h Bool.false_ne_true,
    String.ofList_toList]

/-- Normalizing leaves exactly the canonical names alone. -/
theorem normalize_eq_self_iff : normalize name = name ↔ Canonical name.toList :=
  ⟨fun h => h ▸ canonical_normalize name, normalize_of_canonical⟩

/-- A normalized name is normalized already. -/
theorem normalize_idem (name : String) : normalize (normalize name) = normalize name :=
  normalize_eq_self_iff.mpr (canonical_normalize name)

/-- Apart from blanks at the ends and separators, a name keeps its characters. -/
theorem letters_normalize (name : String) :
    letters (normalize name).toList = letters (trim name.toList) := by
  rw [normalize, String.toList_ofList, letters_joinWords]

/-! ## Reading names -/

section Reading

variable {α β : Type} [ScalarText α]

/-- A name is read as its canonical form is. A name that is refused is quoted as it was given, after
the opening words of the message. -/
structure ReadsCanonically (parse : String → Except (ConfigFault α) β)
    (unknown : String → ConfigFault α) (opening name : String) : Prop where
  ok_iff : ∀ v, parse name = .ok v ↔ parse (normalize name) = .ok v
  error_iff : ∀ e, parse name = .error e ↔ (∀ v, parse (normalize name) ≠ .ok v) ∧ e = unknown name
  message_eq : (SolveError.config (unknown name)).message
    = "Invalid configuration: " ++ opening ++ name ++ "'"

/-- Looking up the canonical form reads names in this way. -/
theorem readsCanonically_lookUp (ofCanonical? : String → Option β)
    {unknown : String → ConfigFault α} {opening : String}
    (hmessage : (unknown name).message = opening ++ name ++ "'") :
    ReadsCanonically (fun name => (ofCanonical? (normalize name)).elim (.error (unknown name)) .ok)
      unknown opening name where
  ok_iff v := by
    rw [normalize_idem]
    cases ofCanonical? (normalize name) with
    | none => exact ⟨nofun, nofun⟩
    | some w => exact Iff.rfl
  error_iff e := by
    rw [normalize_idem]
    cases ofCanonical? (normalize name) with
    | none => exact ⟨fun h => ⟨nofun, (Except.error.inj h).symm⟩, fun h => by rw [h.2]; rfl⟩
    | some w => exact ⟨nofun, fun h => absurd rfl (h.1 w)⟩
  message_eq := by
    show "Invalid configuration: " ++ (unknown name).message = _
    rw [hmessage, ← String.append_assoc, ← String.append_assoc]

end Reading

/-- Normalizing twice is normalizing once. A normalized name has no capital, no space, no dash and
no two underscores in a row, and has kept its letters up to their case. Rules, orders and simplex
variants are read from a name as from its normalized form, and a name that is refused is quoted as
it was given. -/
theorem normalize_projects (α : Type) [Scalar α] [ScalarText α] (name : String) :
    normalize (normalize name) = normalize name ∧
    (∀ c ∈ (normalize name).toList, c.isUpper = false ∧ c ≠ ' ' ∧ c ≠ '-') ∧
    ¬ ['_', '_'] <:+: (normalize name).toList ∧
    letters (normalize name).toList = letters (Text.trim name.toList) ∧
    ReadsCanonically (@BranchingRule.parse α _) .unknownRule "unknown branching strategy '" name ∧
    ReadsCanonically (@NodeSelection.parse α) .unknownSelection "unknown search strategy '" name ∧
    ReadsCanonically (@LpMode.parse α) .unknownLpMode "unknown LP mode '" name := by
  have hcanonical := canonical_normalize name
  refine ⟨normalize_idem name, hcanonical.plain, hcanonical.single, letters_normalize name,
    ?_, ?_, ?_⟩
  · exact readsCanonically_lookUp BranchingRule.ofCanonical? rfl
  · exact readsCanonically_lookUp NodeSelection.ofCanonical? rfl
  · exact readsCanonically_lookUp LpMode.ofCanonical? rfl

example : normalize " Best-EstimateFirst_" = "best_estimate_first_" := by decide +kernel

end StrategyName

end BranchBound
