import Mathlib.Data.List.Nodup
import Mathlib.Data.Nat.Cast.Field
import Mathlib.Data.Nat.Pairing
import BranchBound.Proofs.Scalar.Exact
import BranchBound.Settings.Codec

/-!
# Settings survive writing and reading

Settings that are written as an object and read again are the same, up to the solver's own, which
are not written. The reader does not depend on how the object is laid out: members may stand in any
order, unknown ones are passed over, and those with a standard value may be left out.

* `Json.Varied`: what may be done to the members of an object.
* `Json.Varied.under_eq`: what was written is there once, or it is standard and was left out.
* `Json.Varied.fieldOr?_eq`, `Json.Varied.field?_eq`: a reader finds what was written all the same.
* `NumberCodec.RoundTrips`: finite scalars read back.
* `Settings.Storable`: counts within their range and finite scalars.
* `settings_round_trip`: settings read back, and so do settings that were read.
-/

namespace BranchBound

/-! ## Members of an object -/

namespace Json

variable {β : Type} {standard written ns : List (String × Json)} {name : String} {v w : Json}

/-- Members of an object in another order, with unknown ones added and standard ones left out. -/
inductive Varied (standard written : List (String × Json)) : List (String × Json) → Prop
  | written : Varied standard written written
  | perm {ns ns' : List (String × Json)} (h : Varied standard written ns) (hperm : ns'.Perm ns) :
      Varied standard written ns'
  | add {ns : List (String × Json)} {name : String} (h : Varied standard written ns)
      (hname : name ∉ written.map Prod.fst) (v : Json) : Varied standard written ((name, v) :: ns)
  | drop {ns : List (String × Json)} {m : String × Json} (h : Varied standard written (m :: ns))
      (hm : m ∈ standard) : Varied standard written ns

theorem under_cons_self : (object ((name, v) :: ns)).under name = v :: (object ns).under name := by
  simp [under]

theorem under_cons_of_ne {m : String × Json} (h : m.1 ≠ name) :
    (object (m :: ns)).under name = (object ns).under name := by
  simp [under, h]

/-- An object has nothing under a name it does not have. -/
theorem under_of_not_mem (h : name ∉ ns.map Prod.fst) : (object ns).under name = [] := by
  induction ns with
  | nil => rfl
  | cons m ns ih =>
    rw [List.map_cons, List.mem_cons, not_or] at h
    rw [under_cons_of_ne (Ne.symm h.1), ih h.2]

/-- Where names are told apart, there is one value under a name. -/
theorem under_of_mem (hnodup : (ns.map Prod.fst).Nodup) (hv : (name, v) ∈ ns) :
    (object ns).under name = [v] := by
  induction ns with
  | nil => cases hv
  | cons m ns ih =>
    rw [List.map_cons, List.nodup_cons] at hnodup
    rcases List.mem_cons.mp hv with rfl | hv
    · rw [under_cons_self, under_of_not_mem hnodup.1]
    · have hne : m.1 ≠ name := by
        rintro rfl
        exact hnodup.1 (List.mem_map.mpr ⟨_, hv, rfl⟩)
      rw [under_cons_of_ne hne, ih hnodup.2 hv]

/-- The order of the members makes no difference to what is under a name. -/
theorem perm_under {ns' : List (String × Json)} (h : ns'.Perm ns) :
    ((object ns').under name).Perm ((object ns).under name) := (h.filter _).map _

/-- What was written is there still, once, unless it is standard and was left out. -/
theorem Varied.under_eq (h : Varied standard written ns) (hwritten : (written.map Prod.fst).Nodup)
    (hv : (name, v) ∈ written) : (object ns).under name = [v] ∨
      (object ns).under name = [] ∧ (name, v) ∈ standard := by
  induction h with
  | written => exact .inl (under_of_mem hwritten hv)
  | @perm ns ns' _ hperm ih =>
    have hunder : ((object ns').under name).Perm ((object ns).under name) := perm_under hperm
    rcases ih with heq | ⟨heq, hmem⟩
    · rw [heq] at hunder
      exact .inl (List.perm_singleton.mp hunder)
    · rw [heq] at hunder
      exact .inr ⟨hunder.eq_nil, hmem⟩
  | @add _ other _ hunknown _ ih =>
    have hne : other ≠ name := by
      rintro rfl
      exact hunknown (List.mem_map.mpr ⟨_, hv, rfl⟩)
    rw [under_cons_of_ne hne]
    exact ih
  | @drop ns m _ hdropped ih =>
    by_cases hname : m.1 = name
    · -- the member left out is the one that was written
      obtain ⟨_, w⟩ := m
      subst hname
      rw [under_cons_self] at ih
      rcases ih with heq | ⟨heq, -⟩
      · obtain ⟨rfl, hnil⟩ := List.cons.inj heq
        exact .inr ⟨hnil, hdropped⟩
      · cases heq
    · rw [under_cons_of_ne hname] at ih
      exact ih

section Varied

variable {read : Json → Option β} {a d : β} (h : Varied standard written ns)
  (hwritten : (written.map Prod.fst).Nodup) (hv : (name, v) ∈ written) (hread : read v = some a)

include h hwritten hv hread

/-- A member with a standard value is found, or stands for that value. -/
theorem Varied.fieldOr?_eq (hstandard : (standard.map Prod.fst).Nodup) (hw : (name, w) ∈ standard)
    (hdefault : read w = some d) : (object ns).fieldOr? name d read = some a := by
  unfold fieldOr?
  rcases h.under_eq hwritten hv with heq | ⟨heq, hmem⟩
  · rw [heq]
    exact hread
  · have hsame : v = w := congrArg Prod.snd (List.inj_on_of_nodup_map hstandard hmem hw rfl)
    rw [hsame, hdefault] at hread
    rw [heq]
    exact hread

omit h in
/-- A member that has to be there is found. -/
theorem Varied.field?_eq (h : Varied [] written ns) :
    (object ns).field? name read = some a := by
  have heq := (h.under_eq hwritten hv).resolve_right fun hnone => List.not_mem_nil hnone.2
  unfold field?
  rw [heq]
  exact hread

end Varied

/-- What a member was read as has a property that the standard value and all values read have. -/
theorem of_fieldOr? {j : Json} {read : Json → Option β} {a d : β} {P : β → Prop}
    (h : j.fieldOr? name d read = some a) (hd : P d) (hread : ∀ v b, read v = some b → P b) :
    P a := by
  unfold fieldOr? at h
  split at h
  · cases h
    exact hd
  · exact hread _ a h
  · cases h

/-- A member that has to be there was read from a value. -/
theorem exists_of_field? {j : Json} {read : Json → Option β} {a : β}
    (h : j.field? name read = some a) : ∃ v, read v = some a := by
  unfold field? at h
  split at h
  · exact ⟨_, h⟩
  · cases h

/-! ## Values -/

/-- A count below the limit is read as it was written. -/
theorem count?_ofNat {n : ℕ} (h : n < countLimit) : count? (ofNat n) = some n := by
  simp [count?, ofNat, h]

/-- What is read as a count is below the limit. -/
theorem lt_of_count? {n : ℕ} (h : count? v = some n) : n < countLimit := by
  unfold count? at h
  split at h
  · split at h
    · rename_i hcount
      cases h
      simp only [Bool.and_eq_true, decide_eq_true_eq] at hcount
      exact hcount.2
    · cases h
  · cases h

/-- So is one that may be absent. -/
theorem nullable_count?_ofOption {o : Option ℕ} (h : ∀ n, o = some n → n < countLimit) :
    nullable count? (ofOption ofNat o) = some o := by
  cases o with
  | none => rfl
  | some n =>
    show (count? (ofNat n)).map some = some (some n)
    rw [count?_ofNat (h n rfl), Option.map_some]

theorem lt_of_nullable_count? {o : Option ℕ} (h : nullable count? v = some o) {n : ℕ}
    (hn : o = some n) : n < countLimit := by
  unfold nullable at h
  split at h
  · cases h
    cases hn
  · obtain ⟨m, hm, rfl⟩ := Option.map_eq_some_iff.mp h
    cases hn
    exact lt_of_count? hm

end Json

variable {α : Type} [Scalar α]

/-- Every finite scalar that is written reads back. -/
def NumberCodec.RoundTrips (codec : NumberCodec α) : Prop :=
  ∀ v, Scalar.isFinite v = true → codec.read (codec.encode v) = some v

/-- Measurements that are read are finite. -/
theorem NumberCodec.isFinite_of_read {codec : NumberCodec α} {j : Json} {v : α}
    (h : codec.read j = some v) : Scalar.isFinite v = true :=
  (Option.filter_eq_some_iff.mp h).2

variable {codec : NumberCodec α}

/-! ## Rules -/

/-- Counts are within their range, and the weight is finite. -/
structure Reliability.Storable (r : Reliability α) : Prop where
  minSamples_lt : r.minSamples < countLimit
  iterationCap_lt : r.iterationCap < countLimit
  isFinite_weight : Scalar.isFinite r.weight = true
  lookahead_lt : r.lookahead < countLimit

/-- The parameters of reliability branching, if that is the rule, can be stored. -/
def BranchingRule.Storable (rule : BranchingRule α) : Prop :=
  ∀ r, rule = .reliability r → r.Storable

/-- The parameters as they are written. -/
def Reliability.members (codec : NumberCodec α) (r : Reliability α) : List (String × Json) :=
  [("reliability_count", .ofNat r.minSamples), ("max_sb_iters", .ofNat r.iterationCap),
    ("score_weight", codec.encode r.weight), ("lookahead", .ofNat r.lookahead)]

/-- A rule as it is written; the parameters of reliability branching in any order, among others. -/
inductive BranchingRule.Written (codec : NumberCodec α) : BranchingRule α → Json → Prop
  | plain (rule : BranchingRule α) : Written codec rule (rule.toJson codec)
  | varied {r : Reliability α} {ns : List (String × Json)}
      (h : Json.Varied [] (r.members codec) ns) :
      Written codec (.reliability r) (.object [("reliability", .object ns)])

/-- The parameters of reliability branching are read back, in any order and with other members. -/
theorem Reliability.ofJson?_eq (hcodec : codec.RoundTrips) {r : Reliability α} (hr : r.Storable)
    {ns : List (String × Json)} (h : Json.Varied [] (r.members codec) ns) :
    Reliability.ofJson? codec (.object ns) = some r := by
  have hnodup : ((r.members codec).map Prod.fst).Nodup := by simp [members]
  have hfield : ∀ {β : Type} {v : Json} {read : Json → Option β} {a : β} (name : String),
      (name, v) ∈ r.members codec → read v = some a →
      (Json.object ns).field? name read = some a :=
    fun _ hv hread => Json.Varied.field?_eq hnodup hv hread h
  have hmin := hfield "reliability_count" (by simp [members]) (Json.count?_ofNat hr.minSamples_lt)
  have hcap := hfield "max_sb_iters" (by simp [members]) (Json.count?_ofNat hr.iterationCap_lt)
  have hweight := hfield "score_weight" (by simp [members]) (hcodec _ hr.isFinite_weight)
  have hlookahead := hfield "lookahead" (by simp [members]) (Json.count?_ofNat hr.lookahead_lt)
  unfold ofJson?
  rw [hmin, hcap, hweight, hlookahead]
  rfl

/-- A rule is read back from each of its forms. -/
theorem BranchingRule.ofJson?_eq (hcodec : codec.RoundTrips) {rule : BranchingRule α}
    (hrule : rule.Storable) {j : Json} (h : rule.Written codec j) :
    BranchingRule.ofJson? codec j = some rule := by
  cases h with
  | plain =>
    cases rule with
    | reliability r =>
      show (Reliability.ofJson? codec (.object (r.members codec))).map _ = _
      rw [Reliability.ofJson?_eq hcodec (hrule r rfl) .written, Option.map_some]
    | _ => rfl
  | @varied r ns h =>
    show (Reliability.ofJson? codec (.object ns)).map _ = _
    rw [Reliability.ofJson?_eq hcodec (hrule r rfl) h, Option.map_some]

theorem Reliability.storable_of_ofJson? {j : Json} {r : Reliability α}
    (h : Reliability.ofJson? codec j = some r) : r.Storable := by
  unfold ofJson? at h
  obtain ⟨minSamples, hmin, h⟩ := Option.bind_eq_some_iff.mp h
  obtain ⟨iterationCap, hcap, h⟩ := Option.bind_eq_some_iff.mp h
  obtain ⟨weight, hweight, h⟩ := Option.bind_eq_some_iff.mp h
  obtain ⟨lookahead, hlookahead, h⟩ := Option.bind_eq_some_iff.mp h
  cases h
  obtain ⟨_, hmin⟩ := Json.exists_of_field? hmin
  obtain ⟨_, hcap⟩ := Json.exists_of_field? hcap
  obtain ⟨_, hweight⟩ := Json.exists_of_field? hweight
  obtain ⟨_, hlookahead⟩ := Json.exists_of_field? hlookahead
  exact ⟨Json.lt_of_count? hmin, Json.lt_of_count? hcap, NumberCodec.isFinite_of_read hweight,
    Json.lt_of_count? hlookahead⟩

/-- What is read as a rule can be written again. -/
theorem BranchingRule.storable_of_ofJson? {j : Json} {rule : BranchingRule α}
    (h : BranchingRule.ofJson? codec j = some rule) : rule.Storable := by
  rintro r rfl
  unfold ofJson? at h
  split at h
  · obtain ⟨_, hr, hsame⟩ := Option.map_eq_some_iff.mp h
    cases hsame
    exact Reliability.storable_of_ofJson? hr
  all_goals cases h

/-! ## Settings -/

namespace Settings

/-- Counts are within their range, and scalars are finite. -/
structure Storable (s : Settings α) : Prop where
  maxNodes_lt : s.maxNodes < countLimit
  timeLimit_lt : ∀ n, s.timeLimit = some n → n < countLimit
  isFinite_integralityTol : Scalar.isFinite s.integralityTol = true
  depthLimit_lt : ∀ n, s.depthLimit = some n → n < countLimit
  rule : s.rule.Storable
  logInterval_lt : s.logInterval < countLimit

/-- The members as they are written, around a rule. -/
def members (codec : NumberCodec α) (s : Settings α) (rule : Json) : List (String × Json) :=
  [("max_nodes", .ofNat s.maxNodes), ("time_limit_ms", .ofOption .ofNat s.timeLimit),
    ("int_feas_tol", codec.encode s.integralityTol),
    ("depth_limit", .ofOption .ofNat s.depthLimit), ("branching_rule", rule),
    ("node_selection", s.selection.toJson), ("complete_enumeration", .bool s.enumerateAll),
    ("binary_vars", .bool s.binaryVars), ("lp_mode", s.lpMode.toJson), ("verbose", .bool s.verbose),
    ("log_freq", .ofNat s.logInterval)]

omit [Scalar α] in
theorem toJson_eq (s : Settings α) :
    s.toJson codec = .object (s.members codec (s.rule.toJson codec)) := rfl

omit [Scalar α] in
/-- No two settings have the same name. -/
theorem nodup_members (s : Settings α) (rule : Json) :
    ((s.members codec rule).map Prod.fst).Nodup := by simp [members]

/-- The standard settings can be written, if their tolerance is finite. -/
theorem storable_standard
    (h : Scalar.isFinite (standard : Settings α).integralityTol = true) :
    (standard : Settings α).Storable where
  maxNodes_lt := show 1000000 < countLimit by decide
  timeLimit_lt _ := nofun
  isFinite_integralityTol := h
  depthLimit_lt _ := nofun
  rule _ := nofun
  logInterval_lt := show 100 < countLimit by decide

/-- Whatever an object leaves out or holds besides, what is read from it can be stored. -/
theorem storable_of_ofJson? (hstandard : (standard : Settings α).Storable) {j : Json}
    {s : Settings α} (h : ofJson? codec j = some s) : s.Storable ∧ s.lp = .standard := by
  unfold ofJson? at h
  split at h
  · obtain ⟨maxNodes, hnodes, h⟩ := Option.bind_eq_some_iff.mp h
    obtain ⟨timeLimit, htime, h⟩ := Option.bind_eq_some_iff.mp h
    obtain ⟨tol, htol, h⟩ := Option.bind_eq_some_iff.mp h
    obtain ⟨depthLimit, hdepth, h⟩ := Option.bind_eq_some_iff.mp h
    obtain ⟨rule, hrule, h⟩ := Option.bind_eq_some_iff.mp h
    obtain ⟨selection, -, h⟩ := Option.bind_eq_some_iff.mp h
    obtain ⟨enumerateAll, -, h⟩ := Option.bind_eq_some_iff.mp h
    obtain ⟨binaryVars, -, h⟩ := Option.bind_eq_some_iff.mp h
    obtain ⟨lpMode, -, h⟩ := Option.bind_eq_some_iff.mp h
    obtain ⟨verbose, -, h⟩ := Option.bind_eq_some_iff.mp h
    obtain ⟨logInterval, hlog, h⟩ := Option.bind_eq_some_iff.mp h
    cases h
    refine ⟨⟨?_, ?_, ?_, ?_, ?_, ?_⟩, rfl⟩
    · exact Json.of_fieldOr? (P := (· < countLimit)) hnodes hstandard.maxNodes_lt fun _ _ =>
        Json.lt_of_count?
    · exact Json.of_fieldOr? (P := fun o => ∀ n, o = some n → n < countLimit) htime
        hstandard.timeLimit_lt fun _ _ h _ => Json.lt_of_nullable_count? h
    · exact Json.of_fieldOr? (P := fun v => Scalar.isFinite v = true) htol
        hstandard.isFinite_integralityTol fun _ _ => NumberCodec.isFinite_of_read
    · exact Json.of_fieldOr? (P := fun o => ∀ n, o = some n → n < countLimit) hdepth
        hstandard.depthLimit_lt fun _ _ h _ => Json.lt_of_nullable_count? h
    · exact Json.of_fieldOr? hrule hstandard.rule fun _ _ => BranchingRule.storable_of_ofJson?
    · exact Json.of_fieldOr? (P := (· < countLimit)) hlog hstandard.logInterval_lt fun _ _ =>
        Json.lt_of_count?
  · cases h

/-- However the members are laid out, the settings are read back. -/
theorem ofJson?_eq (hcodec : codec.RoundTrips) (hstandard : (standard : Settings α).Storable)
    {s : Settings α} (hs : s.Storable) {rule : Json} (hrule : s.rule.Written codec rule)
    {ns : List (String × Json)}
    (h : Json.Varied (standard.members codec (standard.rule.toJson codec)) (s.members codec rule)
      ns) :
    ofJson? codec (.object ns) = some { s with lp := .standard } := by
  have hnodup : ((s.members codec rule).map Prod.fst).Nodup := s.nodup_members rule
  have hnodup' : (((standard : Settings α).members codec
      (standard.rule.toJson codec)).map Prod.fst).Nodup := nodup_members _ _
  have hfield : ∀ {β : Type} {v w : Json} {read : Json → Option β} {a d : β} (name : String),
      (name, v) ∈ s.members codec rule →
      (name, w) ∈ standard.members codec (standard.rule.toJson codec) →
      read v = some a → read w = some d → (Json.object ns).fieldOr? name d read = some a :=
    fun _ hv hw hread hdefault => h.fieldOr?_eq hnodup hv hread hnodup' hw hdefault
  have hbool : ∀ b : Bool, Json.bool? (.bool b) = some b := fun _ => rfl
  have hnodes := hfield "max_nodes" (by simp [members]) (by simp [members])
    (Json.count?_ofNat hs.maxNodes_lt) (Json.count?_ofNat hstandard.maxNodes_lt)
  have htime := hfield "time_limit_ms" (by simp [members]) (by simp [members])
    (Json.nullable_count?_ofOption hs.timeLimit_lt)
    (Json.nullable_count?_ofOption hstandard.timeLimit_lt)
  have htol := hfield "int_feas_tol" (by simp [members]) (by simp [members])
    (hcodec _ hs.isFinite_integralityTol) (hcodec _ hstandard.isFinite_integralityTol)
  have hdepth := hfield "depth_limit" (by simp [members]) (by simp [members])
    (Json.nullable_count?_ofOption hs.depthLimit_lt)
    (Json.nullable_count?_ofOption hstandard.depthLimit_lt)
  have hrule := hfield "branching_rule" (by simp [members]) (by simp [members])
    (BranchingRule.ofJson?_eq hcodec hs.rule hrule)
    (BranchingRule.ofJson?_eq hcodec hstandard.rule (.plain _))
  have hselection := hfield "node_selection" (by simp [members]) (by simp [members])
    (NodeSelection.ofJson?_toJson s.selection)
    (NodeSelection.ofJson?_toJson (standard : Settings α).selection)
  have henumerate := hfield "complete_enumeration" (by simp [members])
    (by simp [members]) (hbool s.enumerateAll) (hbool (standard : Settings α).enumerateAll)
  have hbinary := hfield "binary_vars" (by simp [members]) (by simp [members])
    (hbool s.binaryVars) (hbool (standard : Settings α).binaryVars)
  have hmode := hfield "lp_mode" (by simp [members]) (by simp [members])
    (LpMode.ofJson?_toJson s.lpMode)
    (LpMode.ofJson?_toJson (standard : Settings α).lpMode)
  have hverbose := hfield "verbose" (by simp [members]) (by simp [members])
    (hbool s.verbose) (hbool (standard : Settings α).verbose)
  have hlog := hfield "log_freq" (by simp [members]) (by simp [members])
    (Json.count?_ofNat hs.logInterval_lt) (Json.count?_ofNat hstandard.logInterval_lt)
  unfold ofJson?
  dsimp only
  rw [hnodes, htime, htol, hdepth, hrule, hselection, henumerate, hbinary, hmode, hverbose, hlog]
  rfl

end Settings

/-- Settings that can be stored are read back as they were, with the standard settings of the
solver, which are not stored. So they are if the members stand in another order, unknown ones are
added, or standard ones are left out; the parameters of the rule may stand in any order, among
others, too. And whatever settings were read from an object, written and read again they are the
same. -/
theorem settings_round_trip (hcodec : codec.RoundTrips)
    (hfinite : Scalar.isFinite (Settings.standard : Settings α).integralityTol = true) :
    (∀ s : Settings α, s.Storable →
      Settings.ofJson? codec (s.toJson codec) = some { s with lp := .standard } ∧
      ∀ rule ns, s.rule.Written codec rule →
        Json.Varied (Settings.standard.members codec (Settings.standard.rule.toJson codec))
          (s.members codec rule) ns →
        Settings.ofJson? codec (.object ns) = some { s with lp := .standard }) ∧
    ∀ j s, Settings.ofJson? codec j = some s →
      Settings.ofJson? codec (s.toJson codec) = some s := by
  have hstandard := Settings.storable_standard hfinite
  have hplain : ∀ s : Settings α, s.Storable →
      Settings.ofJson? codec (s.toJson codec) = some { s with lp := .standard } := by
    intro s hs
    rw [Settings.toJson_eq]
    exact Settings.ofJson?_eq hcodec hstandard hs (.plain _) .written
  refine ⟨fun s hs => ⟨hplain s hs, fun rule ns hrule hns => ?_⟩, fun j s h => ?_⟩
  · exact Settings.ofJson?_eq hcodec hstandard hs hrule hns
  · obtain ⟨hs, hlp⟩ := Settings.storable_of_ofJson? hstandard h
    rw [hplain s hs, ← hlp]

/-! ## Exact numbers -/

namespace ExtRat

/-- The decimal of a fraction. A fraction without one is written as a numeral that no text gives,
whole and with an exponent. -/
def toNumeral (q : ℚ) : Numeral :=
  if q.den ∣ 10 ^ q.den.log2 then
    ⟨decide (q < 0), q.num.natAbs * (10 ^ q.den.log2 / q.den), -q.den.log2, false⟩
  else ⟨decide (q < 0), Nat.pair q.num.natAbs q.den, 1, true⟩

/-- The fraction that a numeral stands for. -/
def ofNumeral (n : Numeral) : ℚ :=
  let magnitude : ℚ :=
    if n.whole = true ∧ n.exponent = 1 then (n.digits.unpair.1 : ℚ) / n.digits.unpair.2
    else n.digits * 10 ^ n.exponent
  if n.negative then -magnitude else magnitude

/-- Exact numbers by their decimals; infinities are written as null. -/
def decimalCodec : NumberCodec ExtRat where
  encode
    | .fin q => .number (toNumeral q)
    | _ => .null
  decode n := .fin (ofNumeral n)

theorem ofNumeral_toNumeral (q : ℚ) : ofNumeral (toNumeral q) = q := by
  have habs : (q.num.natAbs : ℚ) / q.den = |q| := by
    conv_rhs => rw [← Rat.num_div_den q, abs_div, Nat.abs_cast]
    rw [Nat.cast_natAbs, Int.cast_abs]
  have hsign : (if decide (q < 0) = true then -|q| else |q|) = q := by
    split
    case isTrue h => rw [abs_of_neg (of_decide_eq_true h), neg_neg]
    case isFalse h => exact abs_of_nonneg (not_lt.mp (of_decide_eq_false (eq_false_of_ne_true h)))
  unfold toNumeral ofNumeral
  split
  case isTrue hdvd =>
    have hden : (q.den : ℚ) ≠ 0 := Nat.cast_ne_zero.mpr q.den_ne_zero
    have hmagnitude : ((q.num.natAbs * (10 ^ q.den.log2 / q.den) : ℕ) : ℚ)
        * 10 ^ (-(q.den.log2 : ℤ)) = |q| := by
      rw [← habs, Nat.cast_mul, Nat.cast_div hdvd hden, zpow_neg, zpow_natCast]
      push_cast
      field_simp
    simp only [Bool.false_eq_true, false_and, if_false, hmagnitude]
    exact hsign
  case isFalse =>
    simp only [Nat.unpair_pair, and_self, if_true, habs]
    exact hsign

/-- Decimals that are written exactly are read back. -/
theorem roundTrips_decimalCodec : decimalCodec.RoundTrips := by
  intro v hv
  cases v with
  | fin q =>
    show (some (fin (ofNumeral (toNumeral q)))).filter Scalar.isFinite = some (fin q)
    rw [ofNumeral_toNumeral]
    rfl
  | negInf => cases hv
  | posInf => cases hv

end ExtRat

/-- Settings with reliability branching, some of them standard. -/
def storedSettings : Settings ExtRat :=
  { Settings.standard with
    maxNodes := 5
    integralityTol := .fin (1 / 100)
    rule := .reliability ⟨4, 3, .fin (1 / 4), 5⟩ }

/-- They are read back from the members in reverse, without the one that comes first then, which is
standard, and with an unknown one; and settings read from a single member are read again. -/
theorem settings_round_trip_reversed :
    Settings.ofJson? ExtRat.decimalCodec (.object (("colour", .null) ::
      (storedSettings.members ExtRat.decimalCodec
        (storedSettings.rule.toJson ExtRat.decimalCodec)).reverse.tail)) = some storedSettings ∧
    Settings.ofJson? ExtRat.decimalCodec
      (({ Settings.standard with maxNodes := 5 } : Settings ExtRat).toJson ExtRat.decimalCodec)
      = some { Settings.standard with maxNodes := 5 } := by
  obtain ⟨hwritten, hread⟩ := settings_round_trip ExtRat.roundTrips_decimalCodec rfl
  constructor
  · have hrule : storedSettings.rule.Storable := by
      rintro r ⟨rfl⟩
      exact ⟨by decide, by decide, rfl, by decide⟩
    have hstorable : storedSettings.Storable :=
      ⟨by decide, nofun, rfl, nofun, hrule, by decide⟩
    refine (hwritten storedSettings hstorable).2 _ _ (.plain _) ?_
    generalize hmembers : storedSettings.members ExtRat.decimalCodec
      (storedSettings.rule.toJson ExtRat.decimalCodec) = ms
    have hreverse : ms.reverse = ("log_freq", .ofNat 100) :: ms.reverse.tail := by
      rw [← hmembers]
      rfl
    have hperm : (("log_freq", .ofNat 100) :: ms.reverse.tail).Perm ms := by
      rw [← hreverse]
      exact List.reverse_perm ms
    refine .add (.drop (.perm .written hperm) (by simp [Settings.members, Settings.standard])) ?_ _
    simp [← hmembers, Settings.members]
  · exact hread (.object [("max_nodes", .ofNat 5)]) _ rfl

end BranchBound
