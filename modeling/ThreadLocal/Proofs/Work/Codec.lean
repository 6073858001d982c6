import ThreadLocal.Proofs.Json.RoundTrip
import ThreadLocal.Proofs.Text.Ascii
import ThreadLocal.Work.Pool

/-!
Requests and answers arrive as they were sent.
-/

namespace ThreadLocal

theorem IsPrintable.isAscii {c : Char} (h : IsPrintable c) : IsAscii c := by
  have hle : c.toNat ≤ 126 := h.2
  unfold IsAscii
  omega

/-- The texts of JSON values consist of printable characters. -/
theorem Json.isPrintable_of_text {x : Json} (hx : x.Exact) : ∀ c ∈ x.text.toList, IsPrintable c := by
  rw [Json.text, String.toList_ofList]
  exact Json.isPrintable_of_write hx

namespace Request

theorem exact_texts (items : List String) : (texts (some items)).Exact := by
  apply Json.Exact.arr
  intro x hx
  obtain ⟨s, -, hs⟩ := List.mem_map.mp hx
  exact hs ▸ Json.Exact.str s

theorem exact_toJson (w : WorkItem) : (ofItem w).toJson.Exact := by
  apply Json.Exact.obj
  · simp [Table.keys]
  · intro f hf
    simp only [ofItem, List.mem_cons, List.not_mem_nil, or_false] at hf
    rcases hf with hf | hf | hf
    · exact hf ▸ exact_texts w.includePaths
    · exact hf ▸ exact_texts w.sourceFiles
    · exact hf ▸ Json.Exact.str w.sourceRoot

theorem textsOf_texts (items : List String) : textsOf (texts (some items)) = .ok (some items) := by
  have hdisplay : (items.map Json.str).map Json.display = items := by
    simp [Function.comp_def, Json.display]
  rw [texts, textsOf, hdisplay]

/-- The bytes of a request are those of its characters, none of which ends a line. -/
theorem decode_text (w : WorkItem) :
    Utf8.decode (Bytes.ofText (ofItem w).text) = .ok (ofItem w).text.toList ∧
      unifyLineEnds (ofItem w).text.toList = (ofItem w).text.toList := by
  have hprint : ∀ c ∈ (ofItem w).text.toList, IsPrintable c := Json.isPrintable_of_text (exact_toJson w)
  constructor
  · exact Utf8.decode_encode_of_ascii fun c hc => (hprint c hc).isAscii
  · apply unifyLineEnds_of_notMem
    intro hreturn
    exact absurd (hprint _ hreturn) (by decide)

theorem ofJson_toJson (w : WorkItem) : ofJson (ofItem w).toJson = .ok (ofItem w) := by
  have hroot : textOf (.str w.sourceRoot) = some w.sourceRoot := rfl
  simp [ofJson, toJson, ofItem, require, lookup?, textsOf_texts, hroot, bind, Except.bind, pure, Except.pure]

/-- A request is read as the work item that was sent. -/
theorem read_text (w : WorkItem) : read (ofItem w).text = .ok (ofItem w) := by
  rw [read, text, Json.read_text (exact_toJson w)]
  dsimp only
  rw [ofJson_toJson]
  rfl

end Request

namespace Response

theorem exact_toJson (p : Proposal) : (toJson p).Exact := by
  apply Json.Exact.obj
  · simp [Table.keys]
  · intro f hf
    simp only [List.mem_cons, List.not_mem_nil, or_false] at hf
    rcases hf with hf | hf | hf | hf
    · exact hf ▸ Json.Exact.str p.path
    · exact hf ▸ Json.Exact.int p.offset
    · exact hf ▸ Json.Exact.int p.length
    · exact hf ▸ Json.Exact.str p.text

theorem exact_encoded (proposals : List Proposal) : (Json.arr (proposals.map toJson)).Exact := by
  apply Json.Exact.arr
  intro x hx
  obtain ⟨p, -, hp⟩ := List.mem_map.mp hx
  exact hp ▸ exact_toJson p

theorem record_toJson (p : Proposal) : record (toJson p) = .ok (p.path, p.offset, p.length, p.text) := by
  simp [record, toJson, field, Table.get?, textField, integerField, Except.mapError, faultOf, fieldNames]

theorem make_self (p : Proposal) : Proposal.make p.path p.offset p.length p.text = .ok p := by
  have h : ¬ ((p.offset : Int) < 0 ∨ (p.length : Int) < 0) := by omega
  rw [Proposal.make, if_neg h]
  rfl

theorem mapM_make (proposals : List Proposal) :
    (proposals.mapM fun p => Proposal.make p.path p.offset p.length p.text) = .ok proposals := by
  induction proposals with
  | nil => rfl
  | cons p rest ih =>
    rw [List.mapM_cons, make_self, ih]
    rfl

theorem ofJson_encoded (proposals : List Proposal) :
    ofJson (.arr (proposals.map toJson)) = .ok proposals := by
  have hnone : recordFaults (proposals.map toJson) = [] := by
    unfold recordFaults
    rw [List.filterMap_eq_nil_iff]
    intro e he
    obtain ⟨p, -, hp⟩ := List.mem_map.mp (List.fst_mem_of_mem_zipIdx he)
    rw [← hp, record_toJson]
    rfl
  have hall : Response.proposals (proposals.map toJson) = .ok proposals := by
    have hrecords : (proposals.map toJson).filterMap (fun x => (record x).toOption) =
        proposals.map fun p => (p.path, (p.offset : Int), (p.length : Int), p.text) := by
      simp [List.filterMap_map, record_toJson, Except.toOption]
    rw [Response.proposals, hrecords, List.mapM_map]
    exact mapM_make proposals
  rw [ofJson, hnone, hall]
  rfl

/-- An answer is decoded as the proposals that were sent, also with blanks behind it. -/
theorem decode_encode_append (proposals : List Proposal) {blanks : String}
    (hblanks : Json.skipBlanks blanks.toList = []) (hstops : Json.Stops blanks.toList) :
    decode (encode proposals ++ blanks) = .ok proposals := by
  rw [decode, encode, Json.read_text_append (exact_encoded proposals) hblanks hstops]
  exact ofJson_encoded proposals

theorem isPrintable_of_encode (proposals : List Proposal) : ∀ c ∈ (encode proposals).toList, IsPrintable c :=
  Json.isPrintable_of_text (exact_encoded proposals)

end Response

/-- The bytes of an answer line are understood as the proposals that were sent. -/
theorem Pool.answer_encode (proposals : List Proposal) :
    answer (Bytes.ofText (Response.encode proposals ++ "\n")) = .ok proposals := by
  have hascii : ∀ c ∈ (Response.encode proposals ++ "\n").toList, IsAscii c := by
    intro c hc
    rw [String.toList_append, List.mem_append] at hc
    rcases hc with hc | hc
    · exact (Response.isPrintable_of_encode proposals c hc).isAscii
    · obtain rfl : c = '\n' := by simpa using hc
      decide
  have hstops : Json.Stops "\n".toList := Json.stops_cons (by decide)
  rw [answer, Bytes.text?_ofText hascii]
  dsimp only
  rw [Response.decode_encode_append proposals rfl hstops]
  rfl

end ThreadLocal
