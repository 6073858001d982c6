import Mathlib.Data.List.Basic
import Mathlib.Data.List.Induction
import ThreadLocal.Json.Reader
import ThreadLocal.Proofs.Distinct
import ThreadLocal.Proofs.Json.Numbers
import ThreadLocal.Proofs.Json.Strings

/-!
Values: which texts spell which value. A text is read as the value that it spells, and a text that spells none is not
read, so no text spells two.
-/

namespace ThreadLocal

namespace Table

variable {κ ν : Type} [DecidableEq κ] {t u entries : Table κ ν}

theorem ofList_append_singleton (entries : Table κ ν) (e : κ × ν) :
    ofList (entries ++ [e]) = put (ofList entries) e.1 e.2 := by
  rw [ofList, ofList, List.foldl_append]
  rfl

theorem keys_ofList (entries : Table κ ν) : keys (ofList entries) = distinct (keys entries) := by
  induction entries using List.reverseRecOn with
  | nil => rfl
  | append_singleton entries e ih =>
    have hkeys : keys (entries ++ [e]) = keys entries ++ [e.1] := List.map_append
    rw [ofList_append_singleton, keys_put, ih, hkeys, distinct_append_singleton]
    simp only [mem_distinct]

/-- What is found under a key is what is given for it last. -/
theorem get?_ofList_eq_some_iff {key : κ} {value : ν} :
    get? (ofList entries) key = some value ↔
      ∃ before after, entries = before ++ (key, value) :: after ∧ key ∉ keys after := by
  induction entries using List.reverseRecOn with
  | nil => simp [ofList]
  | append_singleton entries e ih =>
    rw [ofList_append_singleton, get?_put, apply_ite (· = some value), ih]
    constructor
    · intro h
      split at h
      next hkey =>
        obtain rfl := Option.some.inj h
        exact ⟨entries, [], by rw [← hkey], List.not_mem_nil⟩
      next hkey =>
        obtain ⟨before, after, rfl, hlast⟩ := h
        refine ⟨before, after ++ [e], by simp, ?_⟩
        simpa [keys, Ne.symm hkey] using hlast
    · rintro ⟨before, after, hsplit, hlast⟩
      rcases List.eq_nil_or_concat after with rfl | ⟨after, e', rfl⟩
      · obtain ⟨-, he⟩ := List.append_inj' hsplit rfl
        obtain rfl := List.singleton_inj.mp he
        simp
      · rw [List.concat_eq_append] at hsplit hlast
        rw [← List.cons_append, ← List.append_assoc] at hsplit
        obtain ⟨rfl, he⟩ := List.append_inj' hsplit rfl
        obtain rfl := List.singleton_inj.mp he
        simp only [keys, List.map_append, List.map_cons, List.map_nil, List.mem_append, List.mem_singleton,
          not_or] at hlast
        rw [if_neg (Ne.symm hlast.2)]
        exact ⟨before, after, rfl, hlast.1⟩

/-- A table is determined by its keys and by what is found under them. -/
theorem eq_of_keys (distinct : (keys t).Nodup) (same : keys t = keys u) (found : ∀ key, get? t key = get? u key) :
    t = u := by
  have hentries : ∀ t : Table κ ν, (keys t).Nodup →
      (keys t).filterMap (fun key => (get? t key).map fun value => (key, value)) = t := by
    intro t hdistinct
    rw [keys, List.filterMap_map]
    have hsame : ∀ e ∈ t, ((fun key => (get? t key).map fun value => (key, value)) ∘ Prod.fst) e = some e :=
      fun e he => by simp [get?_of_mem hdistinct he]
    rw [List.filterMap_congr hsame, List.filterMap_some]
  rw [← hentries t distinct, ← hentries u (same ▸ distinct), same]
  simp only [found]

end Table

namespace Json

/-- A word or a number. -/
def Plain (t : List Char) (x : Json) : Prop :=
  (t, x) ∈ words ∨ Number t x

theorem Number.head {t : List Char} {x : Json} (h : Number t x) :
    ∃ c more, t = c :: more ∧ (c.isDigit = true ∨ c = '-' ∧ ∃ d more', more = d :: more' ∧ d.isDigit = true) := by
  have hfront : ∀ negative {ds : List Char}, Digits ds → ∀ rest, ∃ c more, minus negative ++ (ds ++ rest) = c :: more ∧
      (c.isDigit = true ∨ c = '-' ∧ ∃ d more', more = d :: more' ∧ d.isDigit = true) := by
    intro negative ds hdigits rest
    obtain ⟨d, more, hds, hd⟩ := hdigits.head_append rest
    cases negative with
    | true => exact ⟨'-', _, rfl, .inr ⟨rfl, d, more, hds, hd⟩⟩
    | false => exact ⟨d, more, hds, .inl hd⟩
  cases h with
  | integer negative whole => simpa using hfront negative whole.toDigits []
  | fraction negative whole => exact hfront negative whole.toDigits _
  | scaled negative whole => exact hfront negative whole.toDigits _
  | scaledFraction negative whole => exact hfront negative whole.toDigits _

/-- A number does not start with a word. -/
theorem words_not_number {t : List Char} {x : Json} (h : Number t x) (rest : List Char) :
    (words.findSome? fun w => if w.1.isPrefixOf (t ++ rest) then some (w.2, w.1.length) else none) = none := by
  have hne : ∀ {d : Char}, d.isDigit = true → ∀ c : Char, c.isDigit = false → ¬ c = d := by
    rintro d hd c hc rfl
    rw [hd] at hc
    cases hc
  obtain ⟨c, more, rfl, hc | ⟨rfl, d, more, rfl, hd⟩⟩ := h.head
  · simp [words, hne hc]
  · simp [words, hne hd]

theorem plain?_sound {s : List Char} {x : Json} {n : Nat} (h : plain? s = some (x, n)) :
    ∃ t, Plain t x ∧ t.length = n ∧ t <+: s := by
  rw [plain?, Option.or_eq_some_iff] at h
  rcases h with h | ⟨-, h⟩
  · obtain ⟨w, hw, hprefix⟩ := List.exists_of_findSome?_eq_some h
    split at hprefix
    next hfront =>
      cases hprefix
      exact ⟨w.1, .inl hw, rfl, List.isPrefixOf_iff_prefix.mp hfront⟩
    next => cases hprefix
  · obtain ⟨t, ht, hlength, hprefix⟩ := number?_sound h
    exact ⟨t, .inr ht, hlength, hprefix⟩

/-- No word is the beginning of another. -/
theorem words_apart : words.Pairwise fun v w => ¬ v.1 <+: w.1 ∧ ¬ w.1 <+: v.1 := by
  decide

theorem findSome?_word {t : List Char} {x : Json} (h : (t, x) ∈ words) (rest : List Char) :
    (words.findSome? fun w => if w.1.isPrefixOf (t ++ rest) then some (w.2, w.1.length) else none) =
      some (x, t.length) := by
  obtain ⟨before, after, hsplit⟩ := List.append_of_mem h
  rw [List.findSome?_eq_some_iff]
  refine ⟨before, (t, x), after, hsplit, if_pos (List.isPrefixOf_iff_prefix.mpr (List.prefix_append t rest)), ?_⟩
  intro v hv
  have hapart := words_apart
  rw [hsplit, List.pairwise_append] at hapart
  obtain ⟨hvt, htv⟩ := hapart.2.2 v hv (t, x) List.mem_cons_self
  refine if_neg fun hfront => ?_
  rcases List.prefix_or_prefix_of_prefix (List.isPrefixOf_iff_prefix.mp hfront) (List.prefix_append t rest) with h | h
  · exact hvt h
  · exact htv h

theorem plain?_complete {t rest : List Char} {x : Json} (h : Plain t x) (hrest : Stops rest) :
    plain? (t ++ rest) = some (x, t.length) := by
  rcases h with h | h
  · rw [plain?, findSome?_word h, Option.some_or]
  · rw [plain?, words_not_number h, Option.none_or, number?_complete h hrest]

theorem readPlain_sound {s rest : List Char} {x : Json} (h : Yields (readPlain s) x rest) :
    ∃ t, s = t ++ rest ∧ Plain t x := by
  cases s with
  | nil => exact absurd h (not_yields_error _)
  | cons c more =>
    unfold readPlain at h
    cases hplain : plain? (c :: more) with
    | none => simp [hplain, not_yields_error] at h
    | some found =>
      obtain ⟨value, n⟩ := found
      cases n with
      | zero => simp [hplain, not_yields_error] at h
      | succ n =>
        obtain ⟨t, ht, hlength, tail, hsplit⟩ := plain?_sound hplain
        simp only [hplain, yields_ok_iff] at h
        obtain ⟨rfl, rfl⟩ := h
        refine ⟨t, ?_, ht⟩
        have hdrop : (c :: more).drop (n + 1) = tail := by rw [← hsplit, ← hlength, List.drop_left]
        rw [← hdrop] at hsplit
        exact hsplit.symm


section steps

variable {s rest : List Char} {x : Json} {items : List Json} {fields : List (String × Json)}

/-- What is read gives a value by itself. -/
theorem yields_wrapped_iff {α : Type} {s' : List Char} {found : α} {left : Left s'} {left' : Left s} (wrap : α → Json)
    (same : left'.1 = left.1) :
    Yields (.ok (wrap found, left')) x rest ↔ ∃ value, Yields (.ok (found, left)) value rest ∧ x = wrap value := by
  simp [yields_ok_iff, same, eq_comm, and_comm]

theorem yields_readValue_string_iff :
    Yields (readValue ('"' :: s)) x rest ↔ ∃ cs, Yields (readString s) cs rest ∧ x = .str (String.ofList cs) := by
  rw [readValue]
  cases hread : readString s with
  | error t => simp [not_yields_error]
  | ok r => exact yields_wrapped_iff (fun cs => .str (String.ofList cs)) rfl

theorem yields_readValue_array_iff :
    Yields (readValue ('[' :: s)) x rest ↔ (skipBlanks s = ']' :: rest ∧ x = .arr []) ∨
      (∀ r, skipBlanks s ≠ ']' :: r) ∧ ∃ items, Yields (readItems (skipBlanks s)) items rest ∧ x = .arr items := by
  rw [readValue]
  split
  next r h =>
    rw [or_iff_left fun hother => hother.1 r h, yields_ok_iff]
    simp [h, eq_comm, and_comm]
  next h =>
    rw [or_iff_right fun hclose => h rest hclose.1, and_iff_right h]
    cases hread : readItems (skipBlanks s) with
    | error t => simp [not_yields_error]
    | ok r => exact yields_wrapped_iff Json.arr rfl

theorem yields_readValue_object_iff :
    Yields (readValue ('\x7b' :: s)) x rest ↔ (skipBlanks s = '\x7d' :: rest ∧ x = .obj []) ∨
      (∀ r, skipBlanks s ≠ '\x7d' :: r) ∧
        ∃ given, Yields (readFields (skipBlanks s)) given rest ∧ x = .obj (Table.ofList given) := by
  rw [readValue]
  split
  next r h =>
    rw [or_iff_left fun hother => hother.1 r h, yields_ok_iff]
    simp [h, eq_comm, and_comm]
  next h =>
    rw [or_iff_right fun hclose => h rest hclose.1, and_iff_right h]
    cases hread : readFields (skipBlanks s) with
    | error t => simp [not_yields_error]
    | ok r => exact yields_wrapped_iff (fun given => .obj (Table.ofList given)) rfl

/-- One step of reading the items of an array. -/
theorem yields_readItems_iff :
    Yields (readItems s) items rest ↔ ∃ x r, Yields (readValue s) x r ∧
      ((skipBlanks r = ']' :: rest ∧ items = [x]) ∨
        ∃ more others, skipBlanks r = ',' :: more ∧ Yields (readItems (skipBlanks more)) others rest ∧
          items = x :: others) := by
  rw [readItems]
  cases hvalue : readValue s with
  | error t => simp [not_yields_error]
  | ok answer =>
    obtain ⟨x, left⟩ := answer
    rw [exists_yields_ok_iff]
    dsimp only
    split
    next more h => simp [yields_ok_iff, h, eq_comm, and_comm]
    next more h =>
      simp only [h, List.cons.injEq, Char.reduceEq, false_and, true_and, false_or]
      cases hothers : readItems (skipBlanks more) with
      | error t => simp [not_yields_error, hothers]
      | ok answer =>
        obtain ⟨others, left'⟩ := answer
        simp [yields_ok_iff, hothers, eq_comm, and_comm]
    next hclose hcomma =>
      simp only [not_yields_error, false_iff]
      rintro (⟨h, -⟩ | ⟨more, -, h, -⟩)
      · exact hclose _ h
      · exact hcomma _ h

/-- One step of reading the fields of an object. -/
theorem yields_readFields_iff :
    Yields (readFields s) fields rest ↔ ∃ inside, s = '"' :: inside ∧
      ∃ name r, Yields (readString inside) name r ∧ ∃ afterColon, skipBlanks r = ':' :: afterColon ∧
        ∃ x r', Yields (readValue (skipBlanks afterColon)) x r' ∧
          ((skipBlanks r' = '\x7d' :: rest ∧ fields = [(String.ofList name, x)]) ∨
            ∃ more others, skipBlanks r' = ',' :: more ∧ Yields (readFields (skipBlanks more)) others rest ∧
              fields = (String.ofList name, x) :: others) := by
  rw [readFields.eq_def]
  split
  swap
  next hquote =>
    simp only [not_yields_error, false_iff]
    rintro ⟨inside, rfl, -⟩
    exact hquote inside rfl
  next inside =>
  simp only [List.cons.injEq, true_and, exists_eq_left']
  cases hname : readString inside with
  | error t => simp [not_yields_error]
  | ok answer =>
  obtain ⟨name, left⟩ := answer
  rw [exists_yields_ok_iff]
  dsimp only
  split
  swap
  next hcolon =>
    simp only [not_yields_error, false_iff]
    rintro ⟨afterColon, h, -⟩
    exact hcolon _ h
  next afterColon hcolon =>
  simp only [hcolon, List.cons.injEq, true_and, exists_eq_left']
  cases hvalue : readValue (skipBlanks afterColon) with
  | error t => simp [not_yields_error]
  | ok answer =>
  obtain ⟨x, left'⟩ := answer
  rw [exists_yields_ok_iff]
  dsimp only
  split
  next more h => simp [yields_ok_iff, h, eq_comm, and_comm]
  next more h =>
    simp only [h, List.cons.injEq, Char.reduceEq, false_and, true_and, false_or]
    cases hothers : readFields (skipBlanks more) with
    | error t => simp [not_yields_error, hothers]
    | ok answer =>
      obtain ⟨others, left''⟩ := answer
      simp [yields_ok_iff, hothers, eq_comm, and_comm]
  next hclose hcomma =>
    simp only [not_yields_error, false_iff]
    rintro (⟨h, -⟩ | ⟨more, -, h, -⟩)
    · exact hclose _ h
    · exact hcomma _ h

end steps

/-! The values themselves. -/

/-- Nothing but blanks. -/
def Blank (s : List Char) : Prop :=
  ∀ c ∈ s, isBlank c = true

/-- Texts with commas between them, and blanks around each. -/
inductive Row : List (List Char) → List Char → Prop where
  | last {before t after : List Char} (h : Blank before) (h' : Blank after) : Row [t] (before ++ (t ++ after))
  | more {before t after rest : List Char} {ts : List (List Char)} (h : Blank before) (h' : Blank after)
      (others : Row ts rest) : Row (t :: ts) (before ++ (t ++ (after ++ ',' :: rest)))

/-- A colon between blanks. -/
def Colon (s : List Char) : Prop :=
  ∃ before after, Blank before ∧ Blank after ∧ s = before ++ ':' :: after

/-- A name and a value, with the texts that spell them and what stands between. -/
structure Member where
  nameText : List Char
  name : String
  between : List Char
  valueText : List Char
  value : Json

namespace Member

def text (m : Member) : List Char :=
  m.nameText ++ (m.between ++ m.valueText)

def field (m : Member) : String × Json :=
  (m.name, m.value)

end Member

/-- What becomes of fields some of which have the same name: each name comes once, in the order in which the names are
first given, and has the value that is given for it last. -/
structure Merged (given fields : List (String × Json)) : Prop where
  names : Table.keys fields = distinct (Table.keys given)
  last : ∀ name x, Table.get? fields name = some x ↔
    ∃ before after, given = before ++ (name, x) :: after ∧ name ∉ Table.keys after

/-- The texts of values. -/
inductive Value : List Char → Json → Prop where
  | plain {t : List Char} {x : Json} (h : Plain t x) : Value t x
  | string {t : List Char} {s : String} (h : Literal t s) : Value t (.str s)
  | emptyArray {inside : List Char} (h : Blank inside) : Value ('[' :: (inside ++ [']'])) (.arr [])
  | array {elements : List (List Char × Json)} {inside : List Char} (row : Row (elements.map Prod.fst) inside)
      (each : ∀ e ∈ elements, Value e.1 e.2) : Value ('[' :: (inside ++ [']'])) (.arr (elements.map Prod.snd))
  | emptyObject {inside : List Char} (h : Blank inside) : Value ('\x7b' :: (inside ++ ['\x7d'])) (.obj [])
  | object {members : List Member} {inside : List Char} {fields : List (String × Json)}
      (row : Row (members.map Member.text) inside)
      (named : ∀ m ∈ members, Literal m.nameText m.name ∧ Colon m.between)
      (each : ∀ m ∈ members, Value m.valueText m.value) (merged : Merged (members.map Member.field) fields) :
    Value ('\x7b' :: (inside ++ ['\x7d'])) (.obj fields)

/-- A text that spells one value, with blanks around it. -/
def Denotes (s : List Char) (x : Json) : Prop :=
  ∃ before t after, Blank before ∧ Value t x ∧ Blank after ∧ s = before ++ (t ++ after)

theorem merged_iff {given fields : List (String × Json)} : Merged given fields ↔ fields = Table.ofList given := by
  constructor
  · intro h
    refine Table.eq_of_keys (h.names ▸ nodup_distinct _) (h.names.trans (Table.keys_ofList given).symm) fun name => ?_
    apply Option.ext
    intro x
    rw [h.last, Table.get?_ofList_eq_some_iff]
  · rintro rfl
    exact ⟨Table.keys_ofList given, fun _ _ => Table.get?_ofList_eq_some_iff⟩

/-- No value begins with a blank, a closing bracket or a byte order mark. -/
def Opens (c : Char) : Prop :=
  isBlank c = false ∧ c ≠ ']' ∧ c ≠ '\x7d' ∧ c ≠ '\ufeff'

instance (c : Char) : Decidable (Opens c) :=
  inferInstanceAs (Decidable (_ ∧ _))

theorem Plain.head {t : List Char} {x : Json} (h : Plain t x) :
    ∃ c more, t = c :: more ∧ Opens c ∧ c ≠ '"' ∧ c ≠ '[' ∧ c ≠ '\x7b' := by
  rcases h with h | h
  · have hall : ∀ w ∈ words, w.1.head?.all (fun c => Opens c ∧ c ≠ '"' ∧ c ≠ '[' ∧ c ≠ '\x7b') = true ∧ w.1 ≠ [] := by
      decide
    obtain ⟨hhead, hne⟩ := hall _ h
    obtain ⟨c, more, rfl⟩ := List.exists_cons_of_ne_nil hne
    exact ⟨c, more, rfl, by simpa using hhead⟩
  · obtain ⟨c, more, rfl, hc⟩ := h.head
    refine ⟨c, more, rfl, ?_⟩
    have hne : ∀ d : Char, d.isDigit = false → d ≠ '-' → c ≠ d := by
      rintro d hd hminus rfl
      rcases hc with hc | ⟨hc, -⟩
      · rw [hd] at hc
        cases hc
      · exact hminus hc
    have hblank : isBlank c = false := by simp [isBlank, hne]
    exact ⟨⟨hblank, hne _ rfl (by decide), hne _ rfl (by decide), hne _ rfl (by decide)⟩, hne _ rfl (by decide),
      hne _ rfl (by decide), hne _ rfl (by decide)⟩

theorem Value.head {t : List Char} {x : Json} (h : Value t x) : ∃ c more, t = c :: more ∧ Opens c := by
  cases h with
  | plain h =>
    obtain ⟨c, more, ht, hopens, -⟩ := h.head
    exact ⟨c, more, ht, hopens⟩
  | string h =>
    obtain ⟨_, _, -, rfl, -⟩ := h
    exact ⟨_, _, rfl, by decide⟩
  | emptyArray => exact ⟨_, _, rfl, by decide⟩
  | array => exact ⟨_, _, rfl, by decide⟩
  | emptyObject => exact ⟨_, _, rfl, by decide⟩
  | object => exact ⟨_, _, rfl, by decide⟩

theorem skipBlanks_append {before : List Char} (h : Blank before) (s : List Char) :
    skipBlanks (before ++ s) = skipBlanks s :=
  List.dropWhile_append_of_pos h

theorem skipBlanks_cons {c : Char} (h : isBlank c = false) (more : List Char) : skipBlanks (c :: more) = c :: more := by
  simp [skipBlanks, h]

/-- Blanks in front of a mark are skipped. -/
theorem skipBlanks_mark {before : List Char} (h : Blank before) {c : Char} (hc : isBlank c = false) (more : List Char) :
    skipBlanks (before ++ c :: more) = c :: more := by
  rw [skipBlanks_append h, skipBlanks_cons hc]

theorem exists_blank (s : List Char) : ∃ before, Blank before ∧ s = before ++ skipBlanks s :=
  ⟨s.takeWhile isBlank, fun _ hc => List.mem_takeWhile_imp hc, List.takeWhile_append_dropWhile.symm⟩

theorem Blank.stops {before rest : List Char} (h : Blank before) (hrest : Stops rest) : Stops (before ++ rest) := by
  cases before with
  | nil => exact hrest
  | cons c more =>
    have hc := h c List.mem_cons_self
    simp only [isBlank, Bool.or_eq_true, decide_eq_true_eq] at hc
    rcases hc with ((rfl | rfl) | rfl) | rfl <;> exact stops_cons (by decide)

/-! A text that spells a value is read. -/

theorem readValue_eq_readPlain {c : Char} {more : List Char} (hquote : c ≠ '"') (hbracket : c ≠ '[')
    (hbrace : c ≠ '\x7b') : readValue (c :: more) = readPlain (c :: more) := by
  rw [readValue]
  all_goals simp_all

theorem readPlain_complete {t rest : List Char} {x : Json} (h : Plain t x) (hrest : Stops rest) :
    Yields (readValue (t ++ rest)) x rest := by
  obtain ⟨c, more, rfl, -, hquote, hbracket, hbrace⟩ := h.head
  have hplain := plain?_complete h hrest
  rw [List.cons_append] at hplain ⊢
  rw [readValue_eq_readPlain hquote hbracket hbrace]
  unfold readPlain
  rw [hplain]
  exact yields_ok_iff.mpr ⟨rfl, List.drop_left⟩

/-- Behind its blanks a row begins with its first text. -/
theorem Row.exists_opening {ts : List (List Char)} {inside : List Char} (row : Row ts inside)
    (opens : ∀ t ∈ ts, ∃ c more, t = c :: more ∧ Opens c) (rest : List Char) :
    ∃ c more, skipBlanks (inside ++ rest) = c :: more ∧ Opens c := by
  cases row with
  | last h _ =>
    obtain ⟨c, more, rfl, hc⟩ := opens _ List.mem_cons_self
    rw [List.append_assoc, skipBlanks_append h]
    exact ⟨c, _, skipBlanks_cons hc.1 _, hc⟩
  | more h _ _ =>
    obtain ⟨c, more, rfl, hc⟩ := opens _ List.mem_cons_self
    rw [List.append_assoc, skipBlanks_append h]
    exact ⟨c, _, skipBlanks_cons hc.1 _, hc⟩

/-- A text that is read as `x` whatever stops behind it. -/
def IsRead (t : List Char) (x : Json) : Prop :=
  ∀ rest, Stops rest → Yields (readValue (t ++ rest)) x rest

theorem Value.skipBlanks_append {t : List Char} {x : Json} (h : Value t x) {before : List Char} (hb : Blank before)
    (rest : List Char) : skipBlanks (before ++ (t ++ rest)) = t ++ rest := by
  obtain ⟨c, more, rfl, hc⟩ := h.head
  rw [Json.skipBlanks_append hb]
  exact skipBlanks_cons hc.1 _

theorem readItems_row {elements : List (List Char × Json)} {inside : List Char}
    (row : Row (elements.map Prod.fst) inside) (each : ∀ e ∈ elements, Value e.1 e.2 ∧ IsRead e.1 e.2)
    (rest : List Char) : Yields (readItems (skipBlanks (inside ++ ']' :: rest))) (elements.map Prod.snd) rest := by
  generalize htexts : elements.map Prod.fst = texts at row
  induction row generalizing elements with
  | last h h' =>
    obtain ⟨e, rfl, rfl⟩ := List.map_eq_singleton_iff.mp htexts
    obtain ⟨hvalue, hread⟩ := each e List.mem_cons_self
    have hclose : Stops (']' :: rest) := stops_cons (by decide)
    rw [List.append_assoc, List.append_assoc, hvalue.skipBlanks_append h]
    exact yields_readItems_iff.mpr ⟨_, _, hread _ (h'.stops hclose), .inl ⟨skipBlanks_mark h' rfl _, rfl⟩⟩
  | @more _ _ _ behind _ h h' _ ih =>
    obtain ⟨e, others, rfl, rfl, hothers⟩ := List.map_eq_cons_iff.mp htexts
    obtain ⟨⟨hvalue, hread⟩, hrest⟩ := List.forall_mem_cons.mp each
    have hcomma : Stops (',' :: (behind ++ ']' :: rest)) := stops_cons (by decide)
    rw [List.append_assoc, List.append_assoc, List.append_assoc, hvalue.skipBlanks_append h]
    exact yields_readItems_iff.mpr ⟨_, _, hread _ (h'.stops hcomma), .inr
      ⟨_, _, skipBlanks_mark h' rfl _, ih hrest hothers, rfl⟩⟩

/-- A member is read up to what stands behind it. -/
theorem Member.reads {m : Member} (named : Literal m.nameText m.name ∧ Colon m.between)
    (h : Value m.valueText m.value ∧ IsRead m.valueText m.value) {before : List Char} (hb : Blank before)
    {rest : List Char} (hrest : Stops rest) :
    ∃ inside cs r afterColon,
      skipBlanks (before ++ (m.text ++ rest)) = '"' :: inside ∧ Yields (readString inside) cs r ∧
      skipBlanks r = ':' :: afterColon ∧ Yields (readValue (skipBlanks afterColon)) m.value rest ∧
      (String.ofList cs, m.value) = m.field := by
  obtain ⟨⟨text, cs, hcharacters, hnameText, hname⟩, blanks, blanks', hblanks, hblanks', hbetween⟩ := named
  obtain ⟨hvalue, hread⟩ := h
  have htext : m.text ++ rest = '"' :: (text ++ '"' :: (blanks ++ ':' :: (blanks' ++ (m.valueText ++ rest)))) := by
    simp [Member.text, hnameText, hbetween]
  refine ⟨_, cs, _, blanks' ++ (m.valueText ++ rest), ?_, yields_readString_iff.mpr ⟨text, rfl, hcharacters⟩,
    skipBlanks_mark hblanks rfl _, ?_, ?_⟩
  · rw [htext, skipBlanks_mark hb rfl]
  · rw [hvalue.skipBlanks_append hblanks']
    exact hread rest hrest
  · rw [Member.field, hname]

theorem readFields_row {members : List Member} {inside : List Char} (row : Row (members.map Member.text) inside)
    (named : ∀ m ∈ members, Literal m.nameText m.name ∧ Colon m.between)
    (each : ∀ m ∈ members, Value m.valueText m.value ∧ IsRead m.valueText m.value) (rest : List Char) :
    Yields (readFields (skipBlanks (inside ++ '\x7d' :: rest))) (members.map Member.field) rest := by
  generalize htexts : members.map Member.text = texts at row
  induction row generalizing members with
  | last h h' =>
    obtain ⟨m, rfl, rfl⟩ := List.map_eq_singleton_iff.mp htexts
    have hclose : Stops ('\x7d' :: rest) := stops_cons (by decide)
    obtain ⟨inside, cs, r, afterColon, hopen, hname, hcolon, hvalue, hfield⟩ :=
      m.reads (named m List.mem_cons_self) (each m List.mem_cons_self) h (h'.stops hclose)
    rw [List.append_assoc, List.append_assoc]
    exact yields_readFields_iff.mpr ⟨inside, hopen, cs, r, hname, afterColon, hcolon, _, _, hvalue, .inl
      ⟨skipBlanks_mark h' rfl _, congrArg ([·]) hfield.symm⟩⟩
  | @more _ _ _ behind _ h h' _ ih =>
    obtain ⟨m, others, rfl, rfl, hothers⟩ := List.map_eq_cons_iff.mp htexts
    obtain ⟨hm, hnamed⟩ := List.forall_mem_cons.mp named
    obtain ⟨hm', heach⟩ := List.forall_mem_cons.mp each
    have hcomma : Stops (',' :: (behind ++ '\x7d' :: rest)) := stops_cons (by decide)
    obtain ⟨inside, cs, r, afterColon, hopen, hname, hcolon, hvalue, hfield⟩ := m.reads hm hm' h (h'.stops hcomma)
    rw [List.append_assoc, List.append_assoc, List.append_assoc]
    exact yields_readFields_iff.mpr ⟨inside, hopen, cs, r, hname, afterColon, hcolon, _, _, hvalue, .inr
      ⟨_, _, skipBlanks_mark h' rfl _, ih hnamed heach hothers, congrArg (· :: _) hfield.symm⟩⟩

/-- What a text spells is read, if what stands behind it does not go on with it. -/
theorem Value.isRead {t : List Char} {x : Json} (h : Value t x) : IsRead t x := by
  induction h with
  | plain h => exact fun rest hrest => readPlain_complete h hrest
  | string h =>
    obtain ⟨text, cs, hcharacters, rfl, rfl⟩ := h
    intro rest _
    rw [List.cons_append, List.append_assoc]
    exact yields_readValue_string_iff.mpr ⟨cs, yields_readString_iff.mpr ⟨text, rfl, hcharacters⟩, rfl⟩
  | emptyArray h =>
    intro rest _
    rw [List.cons_append, List.append_assoc]
    exact yields_readValue_array_iff.mpr (.inl ⟨skipBlanks_mark h rfl rest, rfl⟩)
  | @array elements _ row each ih =>
    intro rest _
    rw [List.cons_append, List.append_assoc]
    have hopens : ∀ t ∈ elements.map Prod.fst, ∃ c more, t = c :: more ∧ Opens c :=
      List.forall_mem_map.mpr fun e he => (each e he).head
    obtain ⟨c, more, hfirst, hc⟩ := row.exists_opening hopens (']' :: rest)
    refine yields_readValue_array_iff.mpr (.inr ⟨fun r hr => ?_, _,
      readItems_row row (fun e he => ⟨each e he, ih e he⟩) rest, rfl⟩)
    exact hc.2.1 (List.cons.inj (hfirst.symm.trans hr)).1
  | emptyObject h =>
    intro rest _
    rw [List.cons_append, List.append_assoc]
    exact yields_readValue_object_iff.mpr (.inl ⟨skipBlanks_mark h rfl rest, rfl⟩)
  | @object members _ _ row named each merged ih =>
    intro rest _
    rw [List.cons_append, List.append_assoc]
    have hopens : ∀ t ∈ members.map Member.text, ∃ c more, t = c :: more ∧ Opens c := by
      refine List.forall_mem_map.mpr fun m hm => ?_
      obtain ⟨⟨text, cs, -, hname, -⟩, -⟩ := named m hm
      rw [Member.text, hname]
      exact ⟨_, _, rfl, by decide⟩
    obtain ⟨c, more, hfirst, hc⟩ := row.exists_opening hopens ('\x7d' :: rest)
    refine yields_readValue_object_iff.mpr (.inr ⟨fun r hr => ?_, _,
      readFields_row row named (fun m hm => ⟨each m hm, ih m hm⟩) rest, by rw [merged_iff.mp merged]⟩)
    exact hc.2.2.1 (List.cons.inj (hfirst.symm.trans hr)).1

/-! A text that is read spells a value. -/

theorem Yields.length_lt {α : Type} {s rest : List Char} {value : α} {answer : Except Trouble (α × Left s)}
    (h : Yields answer value rest) : rest.length < s.length := by
  obtain ⟨left, -, rfl⟩ := h
  exact left.2

theorem Row.behind_blanks {ts : List (List Char)} {inside before : List Char} (h : Blank before) (row : Row ts inside) :
    Row ts (before ++ inside) := by
  have hjoin : ∀ {more : List Char}, Blank more → Blank (before ++ more) := by
    intro more hmore c hc
    rcases List.mem_append.mp hc with hc | hc
    · exact h c hc
    · exact hmore c hc
  cases row with
  | last hb ha =>
    rw [← List.append_assoc]
    exact .last (hjoin hb) ha
  | more hb ha others =>
    rw [← List.append_assoc]
    exact .more (hjoin hb) ha others

theorem length_skipBlanks_lt {s more : List Char} {c : Char} (h : skipBlanks s = c :: more) :
    (skipBlanks more).length < s.length := by
  have hs := skipBlanks_length s
  have hmore := skipBlanks_length more
  rw [h, List.length_cons] at hs
  omega

mutual

theorem value_of_read {s rest : List Char} {x : Json} (h : Yields (readValue s) x rest) :
    ∃ t, s = t ++ rest ∧ Value t x := by
  cases hs : s with
  | nil =>
    rw [hs] at h
    rw [readValue] at h
    · exact absurd h (not_yields_error _)
    all_goals simp
  | cons c more =>
  rw [hs] at h
  by_cases hquote : c = '"'
  · subst hquote
    obtain ⟨cs, hstring, rfl⟩ := yields_readValue_string_iff.mp h
    obtain ⟨text, rfl, hcharacters⟩ := yields_readString_iff.mp hstring
    exact ⟨'"' :: (text ++ ['"']), by simp, .string ⟨text, cs, hcharacters, rfl, rfl⟩⟩
  by_cases hbracket : c = '['
  · subst hbracket
    obtain ⟨blanks, hblanks, hmore⟩ := exists_blank more
    rcases yields_readValue_array_iff.mp h with ⟨hclose, rfl⟩ | ⟨-, items, hitems, rfl⟩
    · exact ⟨'[' :: (blanks ++ [']']), by rw [hmore, hclose]; simp, .emptyArray hblanks⟩
    · have hle := skipBlanks_length more
      obtain ⟨elements, inside, hinside, row, heach, rfl⟩ := row_of_read hitems
      exact ⟨'[' :: (blanks ++ inside ++ [']']), by rw [hmore, hinside]; simp, .array (row.behind_blanks hblanks) heach⟩
  by_cases hbrace : c = '\x7b'
  · subst hbrace
    obtain ⟨blanks, hblanks, hmore⟩ := exists_blank more
    rcases yields_readValue_object_iff.mp h with ⟨hclose, rfl⟩ | ⟨-, given, hgiven, rfl⟩
    · exact ⟨'\x7b' :: (blanks ++ ['\x7d']), by rw [hmore, hclose]; simp, .emptyObject hblanks⟩
    · have hle := skipBlanks_length more
      obtain ⟨members, inside, hinside, row, hnamed, heach, rfl⟩ := members_of_read hgiven
      exact ⟨'\x7b' :: (blanks ++ inside ++ ['\x7d']), by rw [hmore, hinside]; simp,
        .object (row.behind_blanks hblanks) hnamed heach (merged_iff.mpr rfl)⟩
  rw [readValue_eq_readPlain hquote hbracket hbrace] at h
  obtain ⟨t, hs, hplain⟩ := readPlain_sound h
  exact ⟨t, hs, .plain hplain⟩
termination_by (s.length, 0)
decreasing_by
  all_goals
    simp only [Prod.lex_def, hs, List.length_cons]
    omega

theorem row_of_read {s rest : List Char} {items : List Json} (h : Yields (readItems s) items rest) :
    ∃ (elements : List (List Char × Json)) (inside : List Char), s = inside ++ ']' :: rest ∧
      Row (elements.map Prod.fst) inside ∧ (∀ e ∈ elements, Value e.1 e.2) ∧ items = elements.map Prod.snd := by
  obtain ⟨x, r, hvalue, hnext⟩ := yields_readItems_iff.mp h
  obtain ⟨t, hs, hx⟩ := value_of_read hvalue
  obtain ⟨blanks, hblanks, hr⟩ := exists_blank r
  rcases hnext with ⟨hclose, rfl⟩ | ⟨more, others, hcomma, hothers, rfl⟩
  · have hrow : Row [t] ([] ++ (t ++ blanks)) := .last (by simp [Blank]) hblanks
    exact ⟨[(t, x)], _, by rw [hs, hr, hclose]; simp, hrow, by simpa using hx, rfl⟩
  · have hshort := length_skipBlanks_lt hcomma
    have hlt := hvalue.length_lt
    obtain ⟨elements, inside, hinside, row, heach, rfl⟩ := row_of_read hothers
    obtain ⟨blanks', hblanks', hmore⟩ := exists_blank more
    have hrow : Row (t :: elements.map Prod.fst) ([] ++ (t ++ (blanks ++ ',' :: (blanks' ++ inside)))) :=
      .more (by simp [Blank]) hblanks (row.behind_blanks hblanks')
    refine ⟨(t, x) :: elements, _, ?_, hrow, List.forall_mem_cons.mpr ⟨hx, heach⟩, rfl⟩
    rw [hs, hr, hcomma, hmore, hinside]
    simp
termination_by (s.length, 1)
decreasing_by
  · simp [Prod.lex_def]
  · simp only [Prod.lex_def]
    omega

theorem members_of_read {s rest : List Char} {given : List (String × Json)} (h : Yields (readFields s) given rest) :
    ∃ (members : List Member) (inside : List Char), s = inside ++ '\x7d' :: rest ∧
      Row (members.map Member.text) inside ∧ (∀ m ∈ members, Literal m.nameText m.name ∧ Colon m.between) ∧
      (∀ m ∈ members, Value m.valueText m.value) ∧ given = members.map Member.field := by
  obtain ⟨inside, hs, cs, r, hname, afterColon, hcolon, x, r', hvalue, hnext⟩ := yields_readFields_iff.mp h
  obtain ⟨text, hinside, hcharacters⟩ := yields_readString_iff.mp hname
  obtain ⟨before, hbefore, hr⟩ := exists_blank r
  obtain ⟨after, hafter, hafterColon⟩ := exists_blank afterColon
  have hshort := length_skipBlanks_lt hcolon
  have hlt := hname.length_lt
  obtain ⟨t, ht, hx⟩ := value_of_read hvalue
  obtain ⟨blanks, hblanks, hr'⟩ := exists_blank r'
  -- the member that is read first
  let m : Member := ⟨'"' :: (text ++ ['"']), String.ofList cs, before ++ ':' :: after, t, x⟩
  have hnamed : Literal m.nameText m.name ∧ Colon m.between :=
    ⟨⟨text, cs, hcharacters, rfl, rfl⟩, before, after, hbefore, hafter, rfl⟩
  have hm : s = m.text ++ r' := by
    rw [hs, hinside, hr, hcolon, hafterColon, ht]
    simp [m, Member.text]
  rcases hnext with ⟨hclose, rfl⟩ | ⟨more, others, hcomma, hothers, rfl⟩
  · have hrow : Row [m.text] ([] ++ (m.text ++ blanks)) := .last (by simp [Blank]) hblanks
    exact ⟨[m], _, by rw [hm, hr', hclose]; simp, hrow, by simpa using hnamed, by simpa using hx, rfl⟩
  · have hshort' := length_skipBlanks_lt hcomma
    have hlt' := hvalue.length_lt
    obtain ⟨members, inside', hinside', row, hothersNamed, heach, rfl⟩ := members_of_read hothers
    obtain ⟨blanks', hblanks', hmore⟩ := exists_blank more
    have hrow : Row (m.text :: members.map Member.text) ([] ++ (m.text ++ (blanks ++ ',' :: (blanks' ++ inside')))) :=
      .more (by simp [Blank]) hblanks (row.behind_blanks hblanks')
    refine ⟨m :: members, _, ?_, hrow, List.forall_mem_cons.mpr ⟨hnamed, hothersNamed⟩,
      List.forall_mem_cons.mpr ⟨hx, heach⟩, rfl⟩
    rw [hm, hr', hcomma, hmore, hinside']
    simp
termination_by (s.length, 1)
decreasing_by
  all_goals
    simp only [Prod.lex_def, hs, List.length_cons]
    omega

end

/-! Whole texts. -/

theorem readText_eq_ok_iff_yields {s : List Char} {x : Json} :
    readText s = .ok x ↔ s.head? ≠ some '\ufeff' ∧
      ∃ rest, Yields (readValue (skipBlanks s)) x rest ∧ skipBlanks rest = [] := by
  unfold readText
  split
  next hmark => simp [hmark]
  next hmark =>
    rw [and_iff_right hmark]
    cases hread : readValue (skipBlanks s) with
    | error t => simp [not_yields_error]
    | ok answer =>
      obtain ⟨value, left⟩ := answer
      simp only [yields_ok_iff, and_assoc, exists_and_left, exists_eq_left']
      split
      next hend => simp [hend]
      next hend =>
        simp only [reduceCtorEq, false_iff, not_and]
        exact fun _ => hend

theorem Denotes.head?_ne {s : List Char} {x : Json} (h : Denotes s x) : s.head? ≠ some '\ufeff' := by
  obtain ⟨before, t, after, hbefore, hvalue, -, rfl⟩ := h
  cases before with
  | nil =>
    obtain ⟨c, more, rfl, hc⟩ := hvalue.head
    intro h
    exact hc.2.2.2 (Option.some.inj h)
  | cons c more =>
    intro h
    have hc := hbefore c List.mem_cons_self
    rw [List.cons_append, List.head?_cons, Option.some.injEq] at h
    rw [h] at hc
    exact absurd hc (by decide)

theorem readText_eq_ok_iff {s : List Char} {x : Json} : readText s = .ok x ↔ Denotes s x := by
  rw [readText_eq_ok_iff_yields]
  constructor
  · rintro ⟨-, rest, hread, hend⟩
    obtain ⟨t, ht, hvalue⟩ := value_of_read hread
    obtain ⟨before, hbefore, hs⟩ := exists_blank s
    obtain ⟨after, hafter, hrest⟩ := exists_blank rest
    rw [hend, List.append_nil] at hrest
    exact ⟨before, t, after, hbefore, hvalue, hafter, by rw [← hrest, ← ht, ← hs]⟩
  · intro h
    refine ⟨h.head?_ne, ?_⟩
    obtain ⟨before, t, after, hbefore, hvalue, hafter, rfl⟩ := h
    have hend := skipBlanks_append hafter []
    have hstops := hafter.stops stops_nil
    rw [List.append_nil] at hend hstops
    rw [hvalue.skipBlanks_append hbefore]
    exact ⟨after, hvalue.isRead after hstops, hend⟩

/-- A text is read as a value just when it spells it. -/
theorem read_eq_ok_iff {s : String} {x : Json} : read s = .ok x ↔ Denotes s.toList x := by
  rw [← readText_eq_ok_iff]
  unfold read
  cases readText s.toList <;> simp [Except.mapError]

/-- A text that is not read spells nothing. -/
theorem read_eq_error_iff {s : String} : (∃ f, read s = .error f) ↔ ∀ x, ¬ Denotes s.toList x := by
  simp only [← read_eq_ok_iff]
  cases read s <;> simp

/-- No text spells two values. -/
theorem Denotes.unique {s : List Char} {x y : Json} (hx : Denotes s x) (hy : Denotes s y) : x = y :=
  Except.ok.inj ((readText_eq_ok_iff.mpr hx).symm.trans (readText_eq_ok_iff.mpr hy))

end Json
end ThreadLocal
