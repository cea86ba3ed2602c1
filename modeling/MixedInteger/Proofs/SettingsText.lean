import MixedInteger.Proofs.Infinities
import MixedInteger.Proofs.JsonText
import MixedInteger.Settings.Document

/-!
# Settings and their texts

Valid settings are written field by field, the settings of the generator in an object of their own,
and reading the text gives them back. The one value that is valid and has no text is an infinite
limit on coefficients: it stands for no limit, is written as null, and null is no number.

* `Settings.finite_of_validate`: all other numbers of valid settings are finite;
* `Settings.ofJson_toJson`: valid settings survive being written and read, unless the limit on
  coefficients is infinite.
-/

namespace MixedInteger

open Json Scalar

/-! ## Validity -/

theorem GomorySettings.finite_of_validate {s : GomorySettings Float} (h : s.validate = .ok ()) :
    isFinite s.minFraction = true ∧ isFinite s.zeroTol = true := by
  unfold GomorySettings.validate at h
  split at h
  case isTrue => cases h
  case isFalse hmin =>
    obtain ⟨hlow, hhigh⟩ := Decidable.not_not.1 hmin
    split at h
    case isTrue => cases h
    case isFalse hzero =>
      constructor
      · exact Binary64.isFinite_of_between hlow (Binary64.le_of_lt hhigh) (by decide)
      · simpa using fun hfinite => hzero (.inl hfinite)

theorem Settings.finite_of_validate {s : Settings Float} (h : s.validate = .ok ()) :
    isFinite s.cutFraction = true ∧ isFinite s.integralityTol = true ∧
      s.gomory.validate = .ok () := by
  unfold Settings.validate at h
  split at h
  case isTrue => cases h
  case isFalse hfraction =>
    obtain ⟨hlow, hhigh⟩ := Decidable.not_not.1 hfraction
    split at h
    case isTrue => cases h
    case isFalse htol =>
      refine ⟨Binary64.isFinite_of_between hlow hhigh (by decide), ?_, ?_⟩
      · simpa using fun hfinite => htol (.inl hfinite)
      · cases hgomory : s.gomory.validate with
        | ok => rfl
        | error fault =>
          rw [hgomory] at h
          split at h <;> cases h

/-! ## Single values -/

theorem NodeOrder.readAs_name (n : NodeOrder) :
    ReadAs (plainString n.name) NodeOrder.read? (some n) := by
  cases n <;> exact readAs_plainString (by simp [Plain, NodeOrder.name]) rfl

theorem BranchingRule.readAs_name (r : BranchingRule) :
    ReadAs (plainString r.name) BranchingRule.read? (some r) := by
  cases r <;> exact readAs_plainString (by simp [Plain, BranchingRule.name]) rfl

theorem CutStrategy.readAs_name (c : CutStrategy) :
    ReadAs (plainString c.name) CutStrategy.read? (some c) := by
  cases c <;> exact readAs_plainString (by simp [Plain, CutStrategy.name]) rfl

theorem Scope.readAs_name (s : Scope) : ReadAs (plainString s.name) Scope.read? (some s) := by
  cases s <;> exact readAs_plainString (by simp [Plain, Scope.name]) rfl

theorem readAs_count (n : UInt64) : ReadAs (toString n.toNat) readCount? (some n) := by
  have h : n.toNat < Number.wordLimit := n.toNat_lt
  simpa [readCount?, asWord?_ofWord h] using (written_word n.toNat).readAs readCount?

theorem readAs_port (port : Option UInt16) :
    ReadAs (port.elim "null" fun p => toString p.toNat) (orNull? readPort?) (some port) := by
  apply readAs_option rfl
  intro p _
  have hport : p.toNat < 65536 := p.toNat_lt
  have h : p.toNat < Number.wordLimit := Nat.lt_trans hport (by decide)
  simpa [readPort?, asWord?_ofWord h, hport] using (written_word p.toNat).readAs readPort?

theorem readAs_bool (b : Bool) : ReadAs (if b then "true" else "false") asBool? (some b) :=
  (written_bool b).readAs asBool?

/-! ## Records -/

namespace GomorySettings

def fields (s : GomorySettings Float) : List (String × String) :=
  [("min_fraction", json s.minFraction), ("zero_tol", json s.zeroTol),
    ("max_coefficient", json s.maxCoefficient)]

theorem readAs_toJson {s : GomorySettings Float} (hvalid : s.validate = .ok ())
    (hmin : ReadsBack s.minFraction) (hzero : ReadsBack s.zeroTol)
    (hmax : ReadsBack s.maxCoefficient) :
    ReadAs s.toJson GomorySettings.read?
      (if isFinite s.maxCoefficient = true then some s else none) := by
  obtain ⟨hminFinite, hzeroFinite⟩ := finite_of_validate hvalid
  have hmin := hmin.readAs_finite hminFinite
  have hzero := hzero.readAs_finite hzeroFinite
  have hmax := hmax.readAs
  have hplain : ∀ f ∈ s.fields, Plain f.1 := by simp [fields, Plain]
  have htexts : ∀ f ∈ s.fields, Written f.2 (valueOf f.2) := by
    simpa [fields] using ⟨hmin.written, hzero.written, hmax.written⟩
  have hwritten : Written s.toJson (.object (s.fields.map entry)) :=
    written_objectText fun f hf => ⟨hplain f hf, htexts f hf⟩
  have hkeys : (s.fields.map Prod.fst).Nodup := by simp [fields]
  have hreadMin := field?_named hkeys "min_fraction" (by simp [fields]) hmin
  have hreadZero := field?_named hkeys "zero_tol" (by simp [fields]) hzero
  have hreadMax := field?_named hkeys "max_coefficient" (by simp [fields]) hmax
  have hread : GomorySettings.read? (.object (s.fields.map entry)) =
      if isFinite s.maxCoefficient = true then some s else none := by
    simp only [GomorySettings.read?, record?, members?_entries, Option.bind_eq_bind,
      Option.bind_some, hreadMin, hreadZero, hreadMax]
    cases isFinite s.maxCoefficient <;> rfl
  exact hread ▸ hwritten.readAs _

end GomorySettings

namespace Settings

/-- The numbers of the settings that need not be whole. -/
def numbers {α : Type} (s : Settings α) : List α :=
  [s.cutFraction, s.gomory.minFraction, s.gomory.zeroTol, s.gomory.maxCoefficient, s.integralityTol]

def fields (s : Settings Float) : List (String × String) :=
  [("node_selection", plainString s.nodeOrder.name),
    ("branching_rule", plainString s.branchingRule.name),
    ("cut_strategy", plainString s.cutStrategy.name),
    ("cut_fraction", json s.cutFraction),
    ("gomory", s.gomory.toJson),
    ("max_iterations", toString s.maxIterations.toNat),
    ("int_feas_tol", json s.integralityTol),
    ("integrality_scope", plainString s.scope.name),
    ("prune_ties", if s.pruneTies then "true" else "false"),
    ("telemetry_port", s.telemetryPort.elim "null" fun p => toString p.toNat),
    ("log_freq", toString s.logFreq.toNat)]

theorem toJson_eq (s : Settings Float) : s.toJson = objectText s.fields := by
  unfold toJson fields
  cases s.telemetryPort <;> rfl

theorem nodup_fields (s : Settings Float) : (s.fields.map Prod.fst).Nodup :=
  (by decide : fieldNames.Nodup)

theorem plain_fields (s : Settings Float) : ∀ f ∈ s.fields, Plain f.1 := by
  have hnames : ∀ name ∈ fieldNames, Plain name := by simp [fieldNames, Plain]
  exact fun f hf => hnames f.1 (List.mem_map_of_mem (f := Prod.fst) hf)

theorem readAs_toJson {s : Settings Float} (hvalid : s.validate = .ok ())
    (hread : ∀ x ∈ s.numbers, ReadsBack x) :
    ReadAs s.toJson Settings.read?
      (if isFinite s.gomory.maxCoefficient = true then some s else none) := by
  obtain ⟨hfinite, htolFinite, hvalidGomory⟩ := finite_of_validate hvalid
  obtain ⟨hfraction, hmin, hzero, hmax, htol⟩ : ReadsBack s.cutFraction ∧
      ReadsBack s.gomory.minFraction ∧ ReadsBack s.gomory.zeroTol ∧
      ReadsBack s.gomory.maxCoefficient ∧ ReadsBack s.integralityTol := by
    simpa [numbers] using hread
  have horder := s.nodeOrder.readAs_name
  have hrule := s.branchingRule.readAs_name
  have hcuts := s.cutStrategy.readAs_name
  have hfraction := hfraction.readAs_finite hfinite
  have hgomory := GomorySettings.readAs_toJson hvalidGomory hmin hzero hmax
  have hcap := readAs_count s.maxIterations
  have htol := htol.readAs_finite htolFinite
  have hscope := s.scope.readAs_name
  have hties := readAs_bool s.pruneTies
  have hport := readAs_port s.telemetryPort
  have hfreq := readAs_count s.logFreq
  have htexts : ∀ f ∈ s.fields, Written f.2 (valueOf f.2) := by
    simp only [fields, List.mem_cons, List.not_mem_nil, or_false, forall_eq_or_imp, forall_eq]
    exact ⟨horder.written, hrule.written, hcuts.written, hfraction.written, hgomory.written,
      hcap.written, htol.written, hscope.written, hties.written, hport.written, hfreq.written⟩
  have hwritten : Written s.toJson (.object (s.fields.map entry)) := by
    rw [toJson_eq]
    exact written_objectText fun f hf => ⟨s.plain_fields f hf, htexts f hf⟩
  have hkeys := s.nodup_fields
  have hread : Settings.read? (.object (s.fields.map entry)) =
      if isFinite s.gomory.maxCoefficient = true then some s else none := by
    simp only [Settings.read?, record?, members?_entries, Option.bind_eq_bind, Option.bind_some,
      field?_named hkeys "node_selection" (by simp [fields]) horder,
      field?_named hkeys "branching_rule" (by simp [fields]) hrule,
      field?_named hkeys "cut_strategy" (by simp [fields]) hcuts,
      field?_named hkeys "cut_fraction" (by simp [fields]) hfraction,
      field?_named hkeys "gomory" (by simp [fields]) hgomory,
      field?_named hkeys "max_iterations" (by simp [fields]) hcap,
      field?_named hkeys "int_feas_tol" (by simp [fields]) htol,
      field?_named hkeys "integrality_scope" (by simp [fields]) hscope,
      field?_named hkeys "prune_ties" (by simp [fields]) hties,
      field?_named hkeys "telemetry_port" (by simp [fields]) hport,
      field?_named hkeys "log_freq" (by simp [fields]) hfreq]
    -- Only the field of the generator can be refused.
    cases isFinite s.gomory.maxCoefficient <;> rfl
  exact hread ▸ hwritten.readAs _

/-- Valid settings survive being written and read, unless the limit on coefficients is infinite:
the text of such settings is refused. -/
theorem ofJson_toJson (s : Settings Float) (hvalid : s.validate = .ok ())
    (hread : ∀ x ∈ s.numbers, ReadsBack x) :
    ofJson s.toJson =
      if isFinite s.gomory.maxCoefficient = true then .ok s else .error .parse := by
  rw [ofJson, (readAs_toJson hvalid hread).bind_eq]
  cases isFinite s.gomory.maxCoefficient with
  | false => rfl
  | true => simp [hvalid]

/-- Best bound first with cuts, half of them admitted, and an observer. -/
def watched : Settings Float :=
  { default with
    nodeOrder := .bestBound
    cutStrategy := .gomoryMixedInteger
    cutFraction := 0.5
    telemetryPort := some 4242 }

theorem ofJson_toJson_watched :
    watched.validate = .ok () ∧ (∀ x ∈ watched.numbers, ReadsBack x) ∧
      ofJson watched.toJson = .ok watched := by
  have hvalid : watched.validate = .ok () := by decide +kernel
  have hread : ∀ x ∈ watched.numbers, ReadsBack x := by decide +kernel
  have hfinite : isFinite watched.gomory.maxCoefficient = true := by decide +kernel
  have h := ofJson_toJson watched hvalid hread
  rw [if_pos hfinite] at h
  exact ⟨hvalid, hread, h⟩

/-- No limit on the coefficients of cuts. -/
def unlimited : Settings Float :=
  { default with gomory := { GomorySettings.default with maxCoefficient := posInf } }

/-- Without a limit the settings are valid and their text is refused. -/
theorem ofJson_toJson_unlimited :
    unlimited.validate = .ok () ∧ (∀ x ∈ unlimited.numbers, ReadsBack x) ∧
      ofJson unlimited.toJson ≠ .ok unlimited := by
  have hvalid : unlimited.validate = .ok () := by decide +kernel
  have hread : ∀ x ∈ unlimited.numbers, ReadsBack x := by decide +kernel
  have hinfinite : isFinite unlimited.gomory.maxCoefficient = false := by decide +kernel
  refine ⟨hvalid, hread, ?_⟩
  rw [ofJson, (readAs_toJson hvalid hread).bind_eq, hinfinite]
  nofun

end Settings

end MixedInteger
