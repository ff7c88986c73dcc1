import TernaryBelief.Proofs.Admission
import TernaryBelief.Proofs.ReadingBack
import TernaryBelief.Proofs.Texts

/-!
# Configurations from documents

A configuration can be given in part. What a document gives takes the place of the defaults, field
by field, and so within the policy, which can itself be given in part (`Config.GivenBy`). The order
of the members and other members among them do not matter, but no field may be given twice. The
check comes last: it is the merged configuration that has to be valid, not the document. So of two
documents that are accepted, the document that gives what both give may be refused, and the other
way round.

What is loaded is valid, so an engine can be made of it. A valid configuration is always loaded from
its own document, but for its default confidence: for this the number is taken that its numeral is
read as. The numerals of most confidences are short enough to be read exactly, but
0.9999999999999999 is read as one (`Config.loading`).

## Main definitions

* `Json.given`: what members give for a field, and `Json.Overrides`:
  it takes the place of a default;
* `Json.readBack?`: what the numeral of a number is read as;
* `SeverityPolicy.GivenBy`, `Config.GivenBy`: the policy and the configuration that members give;
* `Config.Loads`: what comes of a text that gives members, `Config.Loading`: of texts in general.
-/

namespace TernaryBelief

open Json.Coded (encode decode write)

namespace Json

/-! ## What members give -/

/-- The values that members give for a field, in their order. -/
def given (members : List (String × Value)) (name : String) : List Value :=
  (members.filter fun m => m.1 = name).map Prod.snd

variable {members members' : List (String × Value)} {name : String}

theorem head?_given : (given members name).head? = members.lookup name := by
  induction members with
  | nil => rfl
  | cons m members ih =>
    by_cases hm : m.1 = name
    · subst hm
      simp [given, List.lookup]
    · have hne : (name == m.1) = false := beq_eq_false_iff_ne.mpr (Ne.symm hm)
      rw [List.lookup, hne, ← ih, given, List.filter_cons_of_neg (by simpa using hm)]
      rfl

theorem length_given : (given members name).length = (members.map Prod.fst).count name := by
  rw [given, List.length_map, ← List.countP_eq_length_filter, List.count, List.countP_map]
  rfl

/-- Only the members of a field matter, and not where they stand. -/
theorem given_perm {names : List String} (h : (members.filter fun m => m.1 ∈ names).Perm
      (members'.filter fun m => m.1 ∈ names)) (hname : name ∈ names) :
    (given members name).Perm (given members' name) := by
  have hgiven (ms : List (String × Value)) :
      given ms name = given (ms.filter fun m => m.1 ∈ names) name := by
    rw [given, given, List.filter_filter]
    congr 2
    funext m
    by_cases hm : m.1 = name
    · simp [hm, hname]
    · simp [hm]
  rw [hgiven members, hgiven members']
  exact (h.filter _).map _

/-- Members say something of fields that are given at most once each. -/
theorem slots?_record_iff {names : List String} {slots : List (Option Value)} :
    (Value.record members).slots? names = some slots ↔
      (∀ n ∈ names, (given members n).length ≤ 1) ∧
        names.map (fun n => (given members n).head?) = slots := by
  simp only [slots?_record_eq, ← length_given, ← head?_given]
  split <;> simp_all

/-- What members say of three fields. -/
theorem slots?_record_three {a b c : String} {P Q R : Option Value → Prop} :
    (∃ x y z, (Value.record members).slots? [a, b, c] = some [x, y, z] ∧ P x ∧ Q y ∧ R z) ↔
      ((given members a).length ≤ 1 ∧ P (given members a).head?) ∧
      ((given members b).length ≤ 1 ∧ Q (given members b).head?) ∧
      ((given members c).length ≤ 1 ∧ R (given members c).head?) := by
  simp only [slots?_record_iff, List.map_cons, List.map_nil, List.forall_mem_cons]
  constructor
  · rintro ⟨x, y, z, ⟨⟨ha, hb, hc, -⟩, hslots⟩, hx, hy, hz⟩
    cases hslots
    exact ⟨⟨ha, hx⟩, ⟨hb, hy⟩, hc, hz⟩
  · rintro ⟨⟨ha, hx⟩, ⟨hb, hy⟩, hc, hz⟩
    exact ⟨_, _, _, ⟨⟨ha, hb, hc, fun n hn => absurd hn List.not_mem_nil⟩, rfl⟩, hx, hy, hz⟩

theorem map_lookup_zip {names : List String} (h : names.Nodup) {vs : List Value}
    (hlength : vs.length ≤ names.length) :
    names.map (fun n => (names.zip vs).lookup n) =
      vs.map some ++ List.replicate (names.length - vs.length) none := by
  induction names generalizing vs with
  | nil =>
    rw [List.length_eq_zero_iff.mp (Nat.le_zero.mp hlength)]
    rfl
  | cons n names ih =>
    obtain ⟨hn, hnames⟩ := List.nodup_cons.mp h
    cases vs with
    | nil => simp [List.map_const', List.replicate_succ]
    | cons v vs =>
      -- the name that the first element goes with is not found again
      have hrest : names.map (fun m => ((n, v) :: names.zip vs).lookup m) =
          names.map fun m => (names.zip vs).lookup m := by
        refine List.map_congr_left fun m hm => ?_
        have hne : (m == n) = false := beq_eq_false_iff_ne.mpr fun heq => hn (heq ▸ hm)
        rw [List.lookup, hne]
      rw [List.zip_cons_cons, List.map_cons, List.lookup_cons_self, hrest,
        ih hnames (Nat.le_of_succ_le_succ hlength), List.map_cons, List.cons_append,
        List.length_cons, List.length_cons, Nat.add_sub_add_right]

/-- An array says of the fields what it says as a record of the first so many. -/
theorem slots?_array {names : List String} (h : names.Nodup) {vs : List Value}
    (hlength : vs.length ≤ names.length) :
    (Value.array vs).slots? names = (Value.record (names.zip vs)).slots? names := by
  have hnodup : ((names.zip vs).map Prod.fst).Nodup := by
    rw [List.zip_eq_zip_take_min, List.map_fst_zip (by simp)]
    exact h.sublist (List.take_sublist _ _)
  rw [slots?_record names hnodup, map_lookup_zip h hlength, Value.slots?, if_pos hlength]

/-- An object with a key without characters says nothing of any field. -/
theorem slots?_of_keyless {object : List (Option String × Value)} (h : ∃ m ∈ object, m.1 = none)
    (names : List String) : (Value.object object).slots? names = none := by
  obtain ⟨m, hm, hkey⟩ := h
  have hkeys : object.all (fun m => m.1.isSome) = false :=
    List.all_eq_false.mpr ⟨m, hm, by rw [hkey]; exact Bool.false_ne_true⟩
  rw [Value.slots?, hkeys]
  rfl

/-- Any other object is a record. -/
theorem exists_eq_record {object : List (Option String × Value)} (h : ∀ m ∈ object, m.1 ≠ none) :
    ∃ members, Value.object object = Value.record members := by
  refine ⟨object.map fun m => (m.1.getD "", m.2), congrArg Value.object ?_⟩
  rw [List.map_map]
  refine ((List.map_congr_left fun m hm => ?_).trans (List.map_id object)).symm
  obtain ⟨key, hkey⟩ := Option.ne_none_iff_exists'.mp (h m hm)
  show (some (m.1.getD ""), m.2) = m
  rw [hkey, Option.getD_some, ← hkey]

/-! ## Defaults -/

section

variable {τ : Type} {Form : Value → τ → Prop} {decode : Value → Option τ} {default x : τ}

/-- What is given for a field takes the place of its default, if it is given once
and has the form of the field. -/
inductive Overrides (Form : Value → τ → Prop) (default : τ) : List Value → τ → Prop
  | kept : Overrides Form default [] default
  | given {v : Value} {x : τ} (h : Form v x) : Overrides Form default [v] x

theorem overrides_iff (h : ∀ {v : Value} {x : τ}, decode v = some x ↔ Form v x) {vs : List Value} :
    Overrides Form default vs x ↔ vs.length ≤ 1 ∧ optional default decode vs.head? = some x := by
  constructor
  · rintro (_ | hv)
    · exact ⟨Nat.zero_le 1, rfl⟩
    · exact ⟨Nat.le_refl 1, h.mpr hv⟩
  · rintro ⟨hlength, hvalue⟩
    match vs with
    | [] =>
      cases hvalue
      exact .kept
    | [v] => exact .given (h.mp hvalue)
    | _ :: _ :: vs => simp at hlength

theorem Overrides.perm {vs ws : List Value} (h : Overrides Form default vs x) (hperm : vs.Perm ws) :
    Overrides Form default ws x := by
  cases h with
  | kept =>
    rw [List.nil_perm.mp hperm]
    exact .kept
  | given hv =>
    rw [← List.singleton_perm.mp hperm]
    exact .given hv

end

/-! ## The forms of the fields -/

/-- What a number is read as from its own numeral. It may be a neighbour of the number. -/
def readBack? (x : Float) : Option Float := (Layout.scientific.numeral x).toFloat?

/-- The document is a numeral that is read as this number. -/
def IsNumber (v : Value) (x : Float) : Prop := ∃ n, v = .number n ∧ n.toFloat? = some x

def IsTruth (v : Value) (b : Bool) : Prop := v = .bool b

/-- The document is this name, or an object with it as the only key, at a null. -/
def IsName (v : Value) (name : String) : Prop :=
  v = .text (some name) ∨ v = .object [(some name, .null)]

theorem decode_float_iff {v : Value} {x : Float} : decode v = some x ↔ IsNumber v x := by
  cases v with
  | number n =>
    show n.toFloat? = some x ↔ _
    simp [IsNumber]
  | _ => exact ⟨fun h => (nomatch h), fun ⟨_, h, _⟩ => (nomatch h)⟩

theorem decode_encode_float_iff {x y : Float} (hx : x.isFinite = true) :
    decode (encode x) = some y ↔ readBack? x = some y := by
  show decode (if x.isFinite then .number (Layout.scientific.numeral x) else .null) = some y ↔ _
  rw [if_pos hx]
  rfl

theorem decode_bool_iff {v : Value} {b : Bool} : decode v = some b ↔ IsTruth v b := by
  cases v with
  | bool b' =>
    show some b' = some b ↔ Value.bool b' = Value.bool b
    rw [Option.some.injEq, Value.bool.injEq]
  | _ => exact ⟨fun h => (nomatch h), fun h => (nomatch h)⟩

theorem variant?_eq_some_iff {v : Value} {name : String} :
    v.variant? = some name ↔ IsName v name := by
  unfold Value.variant? IsName
  split <;> simp_all

end Json

open Json (Value given Overrides IsNumber IsTruth IsName)

theorem decode_severity_iff {v : Value} {s : Severity} : decode v = some s ↔ IsName v s.name := by
  show Json.decodeName Severity.all Severity.name v = some s ↔ _
  simp only [Json.decodeName, Option.bind_eq_some_iff, Json.variant?_eq_some_iff]
  constructor
  · rintro ⟨name, hname, hfind⟩
    have hs := List.find?_some hfind
    rwa [beq_iff_eq.mp hs]
  · intro h
    exact ⟨s.name, h, by cases s <;> decide +kernel⟩

/-! ## What is given of a policy -/

/-- The members give this policy. What they do not give is as it is by default. -/
structure SeverityPolicy.GivenBy (members : List (String × Value)) (p : SeverityPolicy) : Prop where
  bothUnknown :
    Overrides (fun v s => IsName v s.name) .soft (given members "both_unknown") p.bothUnknown
  oneUnknown :
    Overrides (fun v s => IsName v s.name) .medium (given members "one_unknown") p.oneUnknown
  opposed : Overrides (fun v s => IsName v s.name) .hard (given members "opposed") p.opposed

theorem SeverityPolicy.nodup_fields : SeverityPolicy.fields.Nodup := by decide

/-- The document gives this policy: by members, or by the first so many of its fields. -/
inductive IsPolicy : Value → SeverityPolicy → Prop
  | members {ms : List (String × Value)} {p : SeverityPolicy} (h : p.GivenBy ms) :
    IsPolicy (.record ms) p
  | elements {vs : List Value} {p : SeverityPolicy}
    (hlength : vs.length ≤ SeverityPolicy.fields.length)
    (h : p.GivenBy (SeverityPolicy.fields.zip vs)) : IsPolicy (.array vs) p

theorem decode_policy_record_iff {ms : List (String × Value)} {p : SeverityPolicy} :
    decode (Value.record ms) = some p ↔ p.GivenBy ms := by
  rw [decode_policy_iff, SeverityPolicy.fields, Json.slots?_record_three,
    ← Json.overrides_iff decode_severity_iff, ← Json.overrides_iff decode_severity_iff,
    ← Json.overrides_iff decode_severity_iff]
  constructor
  · rintro ⟨hboth, hone, hopposed⟩
    exact ⟨hboth, hone, hopposed⟩
  · rintro ⟨hboth, hone, hopposed⟩
    exact ⟨hboth, hone, hopposed⟩

theorem decode_policy_array {vs : List Value} (h : vs.length ≤ SeverityPolicy.fields.length) :
    (decode (Value.array vs) : Option SeverityPolicy) =
      decode (Value.record (SeverityPolicy.fields.zip vs)) := by
  refine Option.ext fun p => ?_
  rw [decode_policy_iff, decode_policy_iff, Json.slots?_array SeverityPolicy.nodup_fields h]

/-- Documents are read as the policies that they give. -/
theorem decode_policy_iff_isPolicy {v : Value} {p : SeverityPolicy} :
    decode v = some p ↔ IsPolicy v p := by
  constructor
  · intro h
    obtain ⟨both, one, opposed, hslots, -⟩ := decode_policy_iff.mp h
    cases v with
    | object object =>
      by_cases hkeys : ∃ m ∈ object, m.1 = none
      · rw [Json.slots?_of_keyless hkeys] at hslots
        cases hslots
      · obtain ⟨ms, hms⟩ := Json.exists_eq_record fun m hm hnone => hkeys ⟨m, hm, hnone⟩
        rw [hms] at h ⊢
        exact .members (decode_policy_record_iff.mp h)
    | array vs =>
      by_cases hlength : vs.length ≤ SeverityPolicy.fields.length
      · rw [decode_policy_array hlength] at h
        exact .elements hlength (decode_policy_record_iff.mp h)
      · rw [Value.slots?, if_neg hlength] at hslots
        cases hslots
    | _ => cases hslots
  · rintro (hmembers | ⟨hlength, helements⟩)
    · exact decode_policy_record_iff.mpr hmembers
    · rw [decode_policy_array hlength]
      exact decode_policy_record_iff.mpr helements

/-! ## What is given of a configuration -/

/-- The members give this configuration. What they do not give is as it is by default. -/
structure Config.GivenBy (members : List (String × Value)) (c : Config) : Prop where
  confidence : Overrides IsNumber 1.0 (given members "default_confidence") c.defaultConfidence
  strict : Overrides IsTruth false (given members "strict_confidence") c.strict
  policy : Overrides IsPolicy {} (given members "severity_policy") c.policy

theorem decode_config_record_iff {ms : List (String × Value)} {c : Config} :
    decode (Value.record ms) = some c ↔ c.GivenBy ms := by
  rw [decode_config_iff, Config.fields, Json.slots?_record_three,
    ← Json.overrides_iff Json.decode_float_iff, ← Json.overrides_iff Json.decode_bool_iff,
    ← Json.overrides_iff decode_policy_iff_isPolicy]
  constructor
  · rintro ⟨hconfidence, hstrict, hpolicy⟩
    exact ⟨hconfidence, hstrict, hpolicy⟩
  · rintro ⟨hconfidence, hstrict, hpolicy⟩
    exact ⟨hconfidence, hstrict, hpolicy⟩

/-- The own document of a configuration gives all of it but the default
confidence, which is as it is read back. -/
theorem decode_encode_config_iff {c d : Config} (hc : c.defaultConfidence.isFinite = true) :
    decode (encode c) = some d ↔ ∃ x, Json.readBack? c.defaultConfidence = some x ∧
      d = { c with defaultConfidence := x } := by
  have hslots : (encode c : Value).slots? Config.fields =
      some [some (encode c.defaultConfidence), some (encode c.strict), some (encode c.policy)] :=
    Json.slots?_record Config.fields (by simp)
  rw [decode_config_iff, hslots]
  obtain ⟨confidence, strict, policy⟩ := d
  constructor
  · rintro ⟨_, _, _, hgiven, hconfidence, hstrict, hpolicy⟩
    cases hgiven
    cases (Json.faithful_bool.optional.mp hstrict).2
    cases (keeps_policy.optional.mp hpolicy).2
    exact ⟨confidence, (Json.decode_encode_float_iff hc).mp hconfidence, rfl⟩
  · rintro ⟨x, hx, heq⟩
    cases heq
    exact ⟨_, _, _, rfl, (Json.decode_encode_float_iff hc).mpr hx,
      Json.faithful_bool.optional.mpr ⟨trivial, rfl⟩, keeps_policy.optional.mpr ⟨trivial, rfl⟩⟩

namespace Config

variable {c d : Config} {s s' : String} {ms ms' : List (String × Value)}

theorem GivenBy.rearranged (h : c.GivenBy ms) (hperm : (ms.filter fun m => m.1 ∈ fields).Perm
      (ms'.filter fun m => m.1 ∈ fields)) : c.GivenBy ms' where
  confidence := h.confidence.perm (Json.given_perm hperm (by decide))
  strict := h.strict.perm (Json.given_perm hperm (by decide))
  policy := h.policy.perm (Json.given_perm hperm (by decide))

/-! ## Loading -/

theorem ofText_of_parse {v : Value} (h : Json.parse s = some v) : ofText s = ofDocument v := by
  rw [ofText, h]

theorem ofDocument_of_decode {v : Value} (h : decode v = some c) : ofDocument v = c.validate := by
  rw [ofDocument, h]

theorem ofDocument_of_unread {v : Value} (h : decode v = (none : Option Config)) :
    ofDocument v = .error unreadable := by
  rw [ofDocument, h]

theorem ofDocument_eq_ok_iff {v : Value} : ofDocument v = .ok c ↔ decode v = some c ∧ c.Valid := by
  cases h : (decode v : Option Config) with
  | none => simp [ofDocument_of_unread h]
  | some d =>
    rw [ofDocument_of_decode h, validate_eq_ok_iff, Option.some.injEq]
    constructor
    · rintro ⟨rfl, hvalid⟩
      exact ⟨rfl, hvalid⟩
    · rintro ⟨rfl, hvalid⟩
      exact ⟨rfl, hvalid⟩

theorem ofText_write (c : Config) : ofText (write c) = ofDocument (encode c) :=
  ofText_of_parse (Json.parse_render _)

/-- The number that is read back is as valid as the default confidence was. -/
theorem Valid.readBack (hc : c.Valid) {x : Float}
    (hx : Json.readBack? c.defaultConfidence = some x) :
    ({ c with defaultConfidence := x } : Config).Valid := by
  obtain ⟨hfinite, hadmits⟩ := valid_iff.mp hc
  obtain ⟨y, hy, hfinite', hunit⟩ := Layout.exists_toFloat?_numeral hfinite
  cases Option.some.inj (hy.symm.trans hx)
  have hadmits' : c.admits x = true := by
    cases hstrict : c.strict with
    | false => exact admits_of_lax hstrict x
    | true =>
      rw [admits, hstrict]
      exact hunit (inUnit_of_admits hstrict hadmits)
  exact valid_iff.mpr ⟨hfinite', hadmits'⟩

/-- The own document of a valid configuration is accepted, with the number that is read back. -/
theorem ofText_write_of_readBack (hc : c.Valid) {x : Float}
    (hx : Json.readBack? c.defaultConfidence = some x) :
    ofText (write c) = .ok { c with defaultConfidence := x } := by
  rw [ofText_write, ofDocument_eq_ok_iff, decode_encode_config_iff (valid_iff.mp hc).1]
  exact ⟨⟨x, hx, rfl⟩, hc.readBack hx⟩

theorem ofText_write_eq_ok_iff (hc : c.Valid) :
    ofText (write c) = .ok c ↔ Json.readBack? c.defaultConfidence = some c.defaultConfidence := by
  constructor
  · intro h
    rw [ofText_write, ofDocument_eq_ok_iff, decode_encode_config_iff (valid_iff.mp hc).1] at h
    obtain ⟨⟨x, hx, heq⟩, -⟩ := h
    have hsame : c.defaultConfidence = x := congrArg defaultConfidence heq
    rwa [← hsame] at hx
  · intro hx
    exact ofText_write_of_readBack hc hx

/-- What comes of a text that gives these members. -/
structure Loads (s : String) (ms : List (String × Value)) : Prop where
  /-- The text is accepted exactly if the members give a configuration that is valid as a whole. -/
  accepted (c : Config) : ofText s = .ok c ↔ c.GivenBy ms ∧ c.Valid
  unique {c d : Config} : c.GivenBy ms → d.GivenBy ms → c = d
  invalid {c : Config} {fault : ConfigFault} : c.GivenBy ms → c.fault? = some fault →
    ofText s = .error (.badConfig fault)
  /-- A member without the form of its field is refused, and so is a field that is given twice. -/
  unreadable : (∀ c : Config, ¬ c.GivenBy ms) →
    ∃ detail, ofText s = .error (.badConfig (.unreadable detail))
  /-- Neither the order of the members nor any other members matter. -/
  rearranged {s' : String} {ms' : List (String × Value)} : Json.parse s' = some (.record ms') →
    (ms.filter fun m => m.1 ∈ fields).Perm (ms'.filter fun m => m.1 ∈ fields) → ofText s' = ofText s

theorem loads (h : Json.parse s = some (.record ms)) : Loads s ms where
  accepted c := by rw [ofText_of_parse h, ofDocument_eq_ok_iff, decode_config_record_iff]
  unique hc hd :=
    Option.some.inj ((decode_config_record_iff.mpr hc).symm.trans (decode_config_record_iff.mpr hd))
  invalid hc hfault := by
    rw [ofText_of_parse h, ofDocument_of_decode (decode_config_record_iff.mpr hc), validate, hfault]
  unreadable hnone := by
    have hdecode : decode (Value.record ms) = (none : Option Config) :=
      Option.eq_none_iff_forall_ne_some.mpr fun c hc => hnone c (decode_config_record_iff.mp hc)
    exact ⟨_, (ofText_of_parse h).trans (ofDocument_of_unread hdecode)⟩
  rearranged {s' ms'} h' hperm := by
    have hdecode : decode (Value.record ms') = (decode (Value.record ms) : Option Config) :=
      Option.ext fun c => by
        rw [decode_config_record_iff, decode_config_record_iff]
        exact ⟨fun hc => hc.rearranged hperm.symm, fun hc => hc.rearranged hperm⟩
    rw [ofText_of_parse h, ofText_of_parse h', ofDocument, ofDocument, hdecode]

/-- What comes of texts. -/
structure Loading (α : Type) : Prop where
  /-- A valid configuration is loaded from its own document, with the
  default confidence that its numeral is read as. -/
  reread {c : Config} : c.Valid → ∃ x, Json.readBack? c.defaultConfidence = some x ∧
    ofText (write c) = .ok { c with defaultConfidence := x }
  /-- So it is loaded as it was exactly if this is the number that was written. -/
  again {c : Config} : c.Valid →
    (ofText (write c) = .ok c ↔ Json.readBack? c.defaultConfidence = some c.defaultConfidence)
  /-- This is the case if the numeral is short. -/
  short {c : Config} : c.Valid → (Layout.scientific.numeral c.defaultConfidence).Short →
    ofText (write c) = .ok c
  members {s : String} {ms : List (String × Value)} : Json.parse s = some (.record ms) → Loads s ms
  /-- There is a text for any members. -/
  written (ms : List (String × Value)) : Json.parse (Value.record ms).render = some (.record ms)
  /-- An object that gives no members, as a key of it has no characters, is refused. -/
  keyless {s : String} {object : List (Option String × Value)} :
    Json.parse s = some (.object object) →
    (∃ m ∈ object, m.1 = none) → ∃ detail, ofText s = .error (.badConfig (.unreadable detail))
  /-- An engine can be made of whatever is accepted. -/
  checked {s : String} {c : Config} : ofText s = .ok c →
    c.Valid ∧ (Engine.ofConfig c : Except Rejection (Engine α)) = .ok { config := c }

/-- **A configuration is loaded from what its document gives, field by field, and it is checked as a
whole.** -/
theorem loading (α : Type) : Loading α where
  reread hc := by
    obtain ⟨x, hx, -⟩ := Layout.exists_toFloat?_numeral (valid_iff.mp hc).1
    exact ⟨x, hx, ofText_write_of_readBack hc hx⟩
  again := ofText_write_eq_ok_iff
  short hc hshort :=
    (ofText_write_eq_ok_iff hc).mpr (Layout.toFloat?_numeral (valid_iff.mp hc).1 hshort)
  members := loads
  written ms := Json.parse_render _
  keyless {s object} h hkeys := by
    have hdecode : decode (Value.object object) = (none : Option Config) :=
      Option.eq_none_iff_forall_ne_some.mpr fun c hc => by
        obtain ⟨_, _, _, hslots, -⟩ := decode_config_iff.mp hc
        rw [Json.slots?_of_keyless hkeys] at hslots
        cases hslots
    exact ⟨_, (ofText_of_parse h).trans (ofDocument_of_unread hdecode)⟩
  checked {s c} h := by
    have hvalid : c.Valid := by
      cases hparse : Json.parse s with
      | none =>
        rw [ofText, hparse] at h
        cases h
      | some v =>
        rw [ofText_of_parse hparse] at h
        exact (ofDocument_eq_ok_iff.mp h).2
    exact ⟨hvalid, Engine.ofConfig_eq_ok_iff.mpr ⟨hvalid, rfl⟩⟩

/-- Confidences are restricted, and nothing else is said. -/
def restricted : String × Value := ("strict_confidence", .bool true)

/-- The default confidence lies beyond the restriction that there might be. -/
def beyond : String × Value := ("default_confidence", encode (1.5 : Float))

/-- Each of two members is accepted alone, and both together are refused, as is one of them given
twice. A configuration with a default confidence of three quarters is loaded from its own
document. -/
theorem loading_beyond_restricted :
    ofText (Value.record [restricted]).render = .ok { strict := true } ∧
    ofText (Value.record [("remark", .null), beyond]).render = .ok { defaultConfidence := 1.5 } ∧
    ofText (Value.record [beyond, restricted]).render = .error (.badConfig (.outsideUnit 1.5)) ∧
    (∃ detail, ofText (Value.record [restricted, restricted]).render =
      .error (.badConfig (.unreadable detail))) ∧
    ofText (write ({ defaultConfidence := 0.75 } : Config)) =
      .ok { defaultConfidence := 0.75 } := by
  have hmembers (ms : List (String × Value)) : Loads (Value.record ms).render ms :=
    (loading Rat).members ((loading Rat).written ms)
  have hbeyond : IsNumber (encode (1.5 : Float)) 1.5 :=
    Json.decode_float_iff.mp
      ((Json.decode_encode_float_iff (by decide +kernel)).mpr (by decide +kernel))
  refine ⟨?_, ?_, ?_, ?_, ?_⟩
  · exact ((hmembers _).accepted _).mpr ⟨⟨.kept, .given rfl, .kept⟩, by decide +kernel⟩
  · exact ((hmembers _).accepted _).mpr ⟨⟨.given hbeyond, .kept, .kept⟩, by decide +kernel⟩
  · have hgiven : GivenBy [beyond, restricted] { defaultConfidence := 1.5, strict := true } :=
      ⟨.given hbeyond, .given rfl, .kept⟩
    exact (hmembers _).invalid hgiven (by decide +kernel)
  · exact (hmembers _).unreadable fun c hc => nomatch hc.strict
  · exact (loading Rat).short (by decide +kernel) ⟨by decide +kernel, by decide +kernel⟩

/-- The default confidence is the number just below one. -/
def belowOne : Config := { defaultConfidence := 0.9999999999999999 }

/-- A valid configuration whose own document is accepted as another one. -/
theorem ofText_write_belowOne :
    belowOne.Valid ∧ ofText (write belowOne) = .ok {} ∧ ofText (write belowOne) ≠ .ok belowOne := by
  have hvalid : belowOne.Valid := by decide +kernel
  have hread : Json.readBack? belowOne.defaultConfidence = some 1.0 := by decide +kernel
  have hloaded : ofText (write belowOne) = .ok {} := ofText_write_of_readBack hvalid hread
  refine ⟨hvalid, hloaded, fun heq => ?_⟩
  have hother : belowOne ≠ {} := by decide +kernel
  exact hother (Except.ok.inj (heq.symm.trans hloaded))

end Config

end TernaryBelief
