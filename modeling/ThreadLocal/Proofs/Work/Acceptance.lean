import ThreadLocal.Proofs.Decimal.Value
import ThreadLocal.Proofs.Json.Grammar
import ThreadLocal.Proofs.Text.Integer
import ThreadLocal.Work.Response

/-!
Which answers of a worker are accepted, and what is reported of the others: that they are no JSON, that they are no
array, which of their items are no records, or the first record with a negative number.
-/

namespace ThreadLocal
namespace Response

/-- A value that is taken for an integer: numbers lose their fraction, toward zero. -/
inductive Numeric : Json → Int → Prop where
  | int (i : Int) : Numeric (.int i) i
  | float {x : Binary64} {q : ℚ} (finite : x.value? = some q) : Numeric (.float x) (if 0 ≤ q then ⌊q⌋ else ⌈q⌉)
  | text {s : String} {i : Int} (h : Integer.Spells s.toList i) : Numeric (.str s) i

/-- An object with the fields of a proposal and no others, and what they hold. -/
inductive Describes : Json → String → Int → Int → String → Prop where
  | mk {fields : List (String × Json)} {low size : Json} {path text : String} {offset length : Int}
      (names : ∀ name, name ∈ Table.keys fields ↔ name ∈ fieldNames)
      (path_eq : Table.get? fields "path" = some (.str path)) (offset_eq : Table.get? fields "offset" = some low)
      (length_eq : Table.get? fields "length" = some size) (text_eq : Table.get? fields "text" = some (.str text))
      (low_numeric : Numeric low offset) (size_numeric : Numeric size length) :
    Describes (.obj fields) path offset length text

/-- Whether a value is a record of a proposal, with numbers of any sign. -/
def IsRecord (x : Json) : Prop :=
  ∃ path offset length text, Describes x path offset length text

theorem textField_eq_ok_iff {x : Json} {s : String} : textField x = .ok s ↔ x = .str s := by
  cases x <;> simp [textField]

theorem integerField_eq_ok_iff {x : Json} {i : Int} : integerField x = .ok i ↔ Numeric x i := by
  constructor
  · intro h
    unfold integerField at h
    split at h
    next => exact Except.ok.inj h ▸ .int _
    next negative mantissa exponent =>
      rw [← Except.ok.inj h, Binary64.truncate_eq rfl]
      exact .float rfl
    next => cases h
    next s =>
      cases hread : Integer.read? s.toList with
      | none => simp [hread] at h
      | some n =>
        rw [hread] at h
        exact Except.ok.inj h ▸ .text (Integer.read?_eq_some_iff.mp hread)
    next => cases h
    next => cases h
  · intro h
    cases h with
    | int => rfl
    | @float x q finite =>
      cases x with
      | nan => cases finite
      | infinite => cases finite
      | finite negative mantissa exponent => rw [integerField, Binary64.truncate_eq finite]
    | text h => rw [integerField, Integer.read?_eq_some_iff.mpr h]

theorem field_eq_ok_iff {α : Type} {fields : List (String × Json)} {name : String} {reader : Json → Except FieldFault α}
    {value : α} :
    field fields name reader = .ok value ↔ ∃ x, Table.get? fields name = some x ∧ reader x = .ok value := by
  unfold field
  cases Table.get? fields name with
  | none => simp
  | some x => cases hx : reader x <;> simp [Except.mapError, hx]

theorem record_eq_ok_iff {x : Json} {path text : String} {offset length : Int} :
    record x = .ok (path, offset, length, text) ↔ Describes x path offset length text := by
  constructor
  · intro h
    unfold record at h
    split at h
    swap
    · cases h
    next fields =>
    dsimp only at h
    split at h
    swap
    · cases h
    next hpath hoffset hlength htext hfaults =>
    cases h
    obtain ⟨_, hgetPath, hreadPath⟩ := field_eq_ok_iff.mp hpath
    obtain ⟨low, hgetOffset, hlow⟩ := field_eq_ok_iff.mp hoffset
    obtain ⟨size, hgetLength, hsize⟩ := field_eq_ok_iff.mp hlength
    obtain ⟨_, hgetText, hreadText⟩ := field_eq_ok_iff.mp htext
    rw [textField_eq_ok_iff] at hreadPath hreadText
    subst hreadPath hreadText
    have hunknown := (List.append_eq_nil_iff.mp hfaults).2
    rw [List.map_eq_nil_iff, List.filter_eq_nil_iff] at hunknown
    refine .mk (fun name => ⟨fun hname => ?_, fun hname => ?_⟩) hgetPath hgetOffset hgetLength hgetText
      (integerField_eq_ok_iff.mp hlow) (integerField_eq_ok_iff.mp hsize)
    · obtain ⟨f, hf, rfl⟩ := List.mem_map.mp hname
      simpa using hunknown f hf
    · have hfound : ∀ {name x}, Table.get? fields name = some x → name ∈ Table.keys fields := fun h =>
        List.mem_map_of_mem (Table.mem_of_get? h)
      simp only [fieldNames, List.mem_cons, List.not_mem_nil, or_false] at hname
      rcases hname with rfl | rfl | rfl | rfl
      · exact hfound hgetPath
      · exact hfound hgetOffset
      · exact hfound hgetLength
      · exact hfound hgetText
  · intro h
    obtain @⟨fields, low, size, _, _, _, _, names, hpath, hoffset, hlength, htext, hlow, hsize⟩ := h
    have hunknown : fields.filter (fun f => f.1 ∉ fieldNames) = [] := by
      rw [List.filter_eq_nil_iff]
      intro f hf
      simpa using (names f.1).mp (List.mem_map_of_mem hf)
    have h₁ := field_eq_ok_iff.mpr ⟨_, hpath, textField_eq_ok_iff.mpr rfl⟩
    have h₂ := field_eq_ok_iff.mpr ⟨_, hoffset, integerField_eq_ok_iff.mpr hlow⟩
    have h₃ := field_eq_ok_iff.mpr ⟨_, hlength, integerField_eq_ok_iff.mpr hsize⟩
    have h₄ := field_eq_ok_iff.mpr ⟨_, htext, textField_eq_ok_iff.mpr rfl⟩
    simp only [record, h₁, h₂, h₃, h₄, hunknown, faultOf, List.filterMap_cons, List.filterMap_nil, id_eq, List.map_nil,
      List.append_nil]

/-- What is checked for each item is whether it is a record. -/
theorem faultOf_record_eq_none_iff {x : Json} : faultOf (record x) = none ↔ IsRecord x := by
  simp only [IsRecord, ← record_eq_ok_iff]
  cases record x with
  | error f => simp [faultOf]
  | ok r => simp [faultOf, Prod.ext_iff]

/-- The faults name exactly the items that are no records, in order. -/
structure Names (items : List Json) (faults : List (Nat × RecordFault)) : Prop where
  increasing : (faults.map Prod.fst).Pairwise (· < ·)
  exact : ∀ i, i ∈ faults.map Prod.fst ↔ ∃ x, items[i]? = some x ∧ ¬ IsRecord x

theorem names_recordFaults (items : List Json) : Names items (recordFaults items) where
  increasing := by
    have hindices : items.zipIdx.Pairwise fun a b => a.2 < b.2 := by
      rw [← List.pairwise_map, List.zipIdx_map_snd]
      exact List.pairwise_lt_range'
    rw [List.pairwise_map, recordFaults, List.pairwise_filterMap]
    refine hindices.imp fun {a b} hab f hf g hg => ?_
    obtain ⟨_, -, rfl⟩ := Option.map_eq_some_iff.mp hf
    obtain ⟨_, -, rfl⟩ := Option.map_eq_some_iff.mp hg
    exact hab
  exact i := by
    simp only [recordFaults, List.mem_map, List.mem_filterMap, Option.map_eq_some_iff, List.mem_zipIdx_iff_getElem?]
    constructor
    · rintro ⟨_, ⟨e, he, f, hf, rfl⟩, rfl⟩
      refine ⟨e.1, he, fun hrecord => ?_⟩
      rw [faultOf_record_eq_none_iff.mpr hrecord] at hf
      cases hf
    · rintro ⟨x, hx, hrecord⟩
      obtain ⟨f, hf⟩ := Option.ne_none_iff_exists'.mp (mt faultOf_record_eq_none_iff.mp hrecord)
      exact ⟨(i, f), ⟨(x, i), hx, f, hf, rfl⟩, rfl⟩

theorem recordFaults_eq_nil_iff {items : List Json} : recordFaults items = [] ↔ ∀ x ∈ items, IsRecord x := by
  rw [← List.map_eq_nil_iff (f := Prod.fst), List.eq_nil_iff_forall_not_mem]
  simp only [(names_recordFaults items).exact, not_exists, not_and, not_not, List.mem_iff_getElem?]
  exact ⟨fun h x ⟨i, hi⟩ => h i x hi, fun h i x hi => h x ⟨i, hi⟩⟩

/-- The items are records of some proposals, one for each and in their order. -/
def Lists (items : List Json) (proposals : List Proposal) : Prop :=
  List.Forall₂ (fun x (p : Proposal) => Describes x p.path p.offset p.length p.text) items proposals

/-- The records up to one with a negative number, and this one. -/
inductive FirstNegative : List Json → NegativeSpan → Prop where
  | here {x : Json} {path text : String} {offset length : Int} (h : Describes x path offset length text)
      (negative : offset < 0 ∨ length < 0) (rest : List Json) : FirstNegative (x :: rest) ⟨offset, length, path⟩
  | later {x : Json} {p : Proposal} {rest : List Json} {fault : NegativeSpan}
      (h : Describes x p.path p.offset p.length p.text) (others : FirstNegative rest fault) :
    FirstNegative (x :: rest) fault

theorem proposals_cons {x : Json} {path text : String} {offset length : Int} (h : Describes x path offset length text)
    (rest : List Json) :
    proposals (x :: rest) = (Proposal.make path offset length text).bind fun p => (proposals rest).map (p :: ·) := by
  have hrecord : (record x).toOption = some (path, offset, length, text) := by
    rw [record_eq_ok_iff.mpr h]
    rfl
  have hrecords : (x :: rest).filterMap (fun x => (record x).toOption) =
      (path, offset, length, text) :: rest.filterMap fun x => (record x).toOption := List.filterMap_cons_some hrecord
  rw [proposals, hrecords, List.mapM_cons, ← proposals]
  cases Proposal.make path offset length text with
  | error f => rfl
  | ok p => cases proposals rest <;> rfl

theorem Describes.unique {x : Json} {path path' text text' : String} {offset offset' length length' : Int}
    (h : Describes x path offset length text) (h' : Describes x path' offset' length' text') :
    path = path' ∧ offset = offset' ∧ length = length' ∧ text = text' := by
  have hsame := Except.ok.inj ((record_eq_ok_iff.mpr h).symm.trans (record_eq_ok_iff.mpr h'))
  simpa using hsame

theorem Describes.proposal_unique {x : Json} {p q : Proposal} (h : Describes x p.path p.offset p.length p.text)
    (h' : Describes x q.path q.offset q.length q.text) : p = q := by
  have hsame := h.unique h'
  cases p
  cases q
  simpa using hsame

/-- A record without a negative number is one of a proposal. -/
theorem IsRecord.proposal_or_negative {x : Json} (h : IsRecord x) :
    (∃ p : Proposal, Describes x p.path p.offset p.length p.text) ∨
      ∃ path offset length text, Describes x path offset length text ∧ (offset < 0 ∨ length < 0) := by
  obtain ⟨path, offset, length, text, hx⟩ := h
  by_cases hnegative : offset < 0 ∨ length < 0
  · exact .inr ⟨path, offset, length, text, hx, hnegative⟩
  · obtain ⟨low, rfl⟩ := Int.eq_ofNat_of_zero_le (by omega : 0 ≤ offset)
    obtain ⟨size, rfl⟩ := Int.eq_ofNat_of_zero_le (by omega : 0 ≤ length)
    exact .inl ⟨⟨path, low, size, text⟩, hx⟩

theorem proposals_of_negative {x : Json} {path text : String} {offset length : Int}
    (h : Describes x path offset length text) (negative : offset < 0 ∨ length < 0) (rest : List Json) :
    proposals (x :: rest) = .error ⟨offset, length, path⟩ := by
  rw [proposals_cons h, Proposal.make, if_pos negative]
  rfl

theorem proposals_of_proposal {x : Json} {p : Proposal} (h : Describes x p.path p.offset p.length p.text)
    (rest : List Json) : proposals (x :: rest) = (proposals rest).map (p :: ·) := by
  rw [proposals_cons h, Proposal.make, if_neg (by omega)]
  rfl

/-- Of records either all are proposals, or one has a negative number. -/
theorem proposals_of_records {items : List Json} (all : ∀ x ∈ items, IsRecord x) :
    (∀ ps, proposals items = .ok ps ↔ Lists items ps) ∧
      ∀ fault, proposals items = .error fault ↔ FirstNegative items fault := by
  induction items with
  | nil =>
    refine ⟨fun ps => ?_, fun fault => ⟨fun h => ?_, fun h => ?_⟩⟩
    · rw [Lists, List.forall₂_nil_left_iff]
      exact ⟨fun h => (Except.ok.inj h).symm, fun h => h ▸ rfl⟩
    · cases h
    · cases h
  | cons x rest ih =>
    obtain ⟨hfirst, hrest⟩ := List.forall_mem_cons.mp all
    obtain ⟨hok, herror⟩ := ih hrest
    -- a first record with a negative number decides; any other leaves it to the rest
    rcases hfirst.proposal_or_negative with ⟨p, hp⟩ | ⟨path, offset, length, text, hx, hnegative⟩
    · rw [proposals_of_proposal hp]
      refine ⟨fun ps => ⟨fun h => ?_, fun h => ?_⟩, fun fault => ⟨fun h => ?_, fun h => ?_⟩⟩
      · cases hqs : proposals rest with
        | error f => simp [hqs, Except.map] at h
        | ok qs =>
          rw [hqs] at h
          obtain rfl := Except.ok.inj h
          exact .cons hp ((hok qs).mp hqs)
      · cases h with
        | cons hq hqs => rw [hp.proposal_unique hq, (hok _).mpr hqs, Except.map]
      · cases hqs : proposals rest with
        | error f =>
          rw [hqs] at h
          obtain rfl := Except.error.inj h
          exact .later hp ((herror f).mp hqs)
        | ok qs => simp [hqs, Except.map] at h
      · cases h with
        | here h =>
          obtain ⟨-, rfl, rfl, -⟩ := hp.unique h
          omega
        | later _ others => rw [(herror fault).mpr others, Except.map]
    · rw [proposals_of_negative hx hnegative]
      refine ⟨fun ps => ⟨fun h => ?_, fun h => ?_⟩, fun fault => ⟨fun h => ?_, fun h => ?_⟩⟩
      · cases h
      · cases h with
        | cons hp _ =>
          obtain ⟨-, rfl, rfl, -⟩ := hx.unique hp
          omega
      · obtain rfl := Except.error.inj h
        exact .here hx hnegative rest
      · cases h with
        | here h =>
          obtain ⟨rfl, rfl, rfl, -⟩ := hx.unique h
          rfl
        | later hp =>
          obtain ⟨-, rfl, rfl, -⟩ := hx.unique hp
          omega

theorem Describes.isRecord {x : Json} {path text : String} {offset length : Int}
    (h : Describes x path offset length text) : IsRecord x :=
  ⟨path, offset, length, text, h⟩

theorem Lists.all_records {items : List Json} {ps : List Proposal} (h : Lists items ps) : ∀ x ∈ items, IsRecord x := by
  induction h with
  | nil => simp
  | cons hp _ ih => exact List.forall_mem_cons.mpr ⟨hp.isRecord, ih⟩

/-- An array is refused for the items that are no records; without such items the numbers decide. -/
theorem ofJson_arr (items : List Json) :
    (∀ x ∈ items, IsRecord x) ∧ ofJson (.arr items) = (proposals items).mapError .negativeSpan ∨
      (∃ x ∈ items, ¬ IsRecord x) ∧ ofJson (.arr items) = .error (.schema (.records (recordFaults items))) := by
  rw [ofJson]
  split
  next h => exact .inl ⟨recordFaults_eq_nil_iff.mp h, rfl⟩
  next h =>
    refine .inr ⟨?_, rfl⟩
    by_contra hnone
    push Not at hnone
    exact h (recordFaults_eq_nil_iff.mpr hnone)

theorem ofJson_eq_ok_iff {x : Json} {ps : List Proposal} :
    ofJson x = .ok ps ↔ ∃ items, x = .arr items ∧ Lists items ps := by
  cases x with
  | arr items =>
    simp only [Json.arr.injEq, exists_eq_left']
    rcases ofJson_arr items with ⟨hall, h⟩ | ⟨⟨x, hx, hbad⟩, h⟩
    · rw [h, ← (proposals_of_records hall).1]
      cases proposals items <;> simp [Except.mapError]
    · rw [h]
      exact ⟨nofun, fun hlists => absurd (hlists.all_records x hx) hbad⟩
  | _ => simp [ofJson]

theorem ofJson_eq_notArray_iff {x : Json} : ofJson x = .error (.schema .notArray) ↔ ∀ items, x ≠ .arr items := by
  cases x with
  | arr items =>
    rcases ofJson_arr items with ⟨-, h⟩ | ⟨-, h⟩
    · rw [h]
      cases proposals items <;> simp [Except.mapError]
    · simp [h]
  | _ => simp [ofJson]

theorem ofJson_eq_records_iff {x : Json} {faults : List (Nat × RecordFault)} :
    ofJson x = .error (.schema (.records faults)) ↔
      ∃ items, x = .arr items ∧ (∃ y ∈ items, ¬ IsRecord y) ∧ faults = recordFaults items := by
  cases x with
  | arr items =>
    simp only [Json.arr.injEq, exists_eq_left']
    rcases ofJson_arr items with ⟨hall, h⟩ | ⟨hbad, h⟩
    · rw [h]
      refine ⟨fun herror => ?_, fun ⟨⟨y, hy, hbad⟩, _⟩ => absurd (hall y hy) hbad⟩
      cases hps : proposals items <;> simp [hps, Except.mapError] at herror
    · simp [h, hbad, eq_comm]
  | _ => simp [ofJson]

theorem ofJson_eq_negativeSpan_iff {x : Json} {fault : NegativeSpan} :
    ofJson x = .error (.negativeSpan fault) ↔
      ∃ items, x = .arr items ∧ (∀ y ∈ items, IsRecord y) ∧ FirstNegative items fault := by
  cases x with
  | arr items =>
    simp only [Json.arr.injEq, exists_eq_left']
    rcases ofJson_arr items with ⟨hall, h⟩ | ⟨⟨y, hy, hbad⟩, h⟩
    · rw [h, and_iff_right hall, ← (proposals_of_records hall).2]
      cases proposals items <;> simp [Except.mapError]
    · rw [h]
      exact ⟨nofun, fun ⟨hall, _⟩ => absurd (hall y hy) hbad⟩
  | _ => simp [ofJson]

/-- Whatever is not about the text is about the value that it denotes. -/
theorem decode_eq_iff {s : String} {outcome : Except ResponseFault (List Proposal)}
    (h : ∀ fault, outcome ≠ .error (.syntaxError fault)) :
    decode s = outcome ↔ ∃ x, Json.Denotes s.toList x ∧ ofJson x = outcome := by
  simp only [← Json.read_eq_ok_iff, decode]
  cases Json.read s with
  | error fault => simpa using (h fault).symm
  | ok x => simp

theorem ofJson_ne_syntaxError (x : Json) (fault : Json.SyntaxError) : ofJson x ≠ .error (.syntaxError fault) := by
  cases x with
  | arr items =>
    rcases ofJson_arr items with ⟨-, h⟩ | ⟨-, h⟩
    · rw [h]
      cases proposals items <;> simp [Except.mapError]
    · simp [h]
  | _ => simp [ofJson]

theorem decode_syntaxError_iff {s : String} :
    (∃ fault, decode s = .error (.syntaxError fault)) ↔ ∀ x, ¬ Json.Denotes s.toList x := by
  rw [← Json.read_eq_error_iff, decode]
  cases Json.read s with
  | error fault => simp
  | ok x => simp [ofJson_ne_syntaxError]

theorem exists_denotes_arr_iff {t : List Char} {P : List Json → Prop} :
    (∃ x, Json.Denotes t x ∧ ∃ items, x = .arr items ∧ P items) ↔ ∃ items, Json.Denotes t (.arr items) ∧ P items := by
  constructor
  · rintro ⟨_, hx, items, rfl, h⟩
    exact ⟨items, hx, h⟩
  · rintro ⟨items, hx, h⟩
    exact ⟨_, hx, items, rfl, h⟩

end Response
end ThreadLocal
