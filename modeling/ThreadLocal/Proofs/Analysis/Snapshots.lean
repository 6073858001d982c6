import Mathlib.Data.List.Basic
import ThreadLocal.Contents

/-!
Contents asked for while the files change. Whatever happens to a file, all that is asked about one path is answered from
what the first reading of it that succeeded has found there.
-/

namespace ThreadLocal
namespace Contents

/-- What can be asked about the file at a path. -/
inductive Question where
  | bytes
  | fragment (low high : Int)
  | position (offset : Int)
deriving DecidableEq, Repr

inductive Answer where
  | bytes (outcome : Except AccessFault Bytes)
  | fragment (outcome : Except FragmentFault Bytes)
  | position (outcome : Except AccessFault Position)
deriving DecidableEq, Repr

/-- The answer to a question about a file whose bytes are known, or which cannot be opened. -/
def Question.answer (path : String) (bytes : Except AccessFault Bytes) : Question → Answer
  | .bytes => .bytes bytes
  | .fragment low high => .fragment (match bytes with
    | .error f => .error (.access f)
    | .ok content =>
      if 0 ≤ low ∧ low ≤ high ∧ high ≤ content.length then .ok (content.slice low high)
      else .error (.outside low high path content.length))
  | .position offset => .position (bytes.map fun content => content.position offset)

/-- Asks the contents that are known so far. -/
def ask (known : Contents) (fs : Files) (path : String) : Question → Answer × Contents
  | .bytes => (known.read fs path).map .bytes id
  | .fragment low high => (known.fragment fs path low high).map .fragment id
  | .position offset => (known.position fs path offset).map .position id

/-- What happens in a session: the files become others, by writes, deletions or whatever else, or something is asked. -/
inductive Event where
  | change (files : Files)
  | ask (path : String) (question : Question)

/-- The files as a session leaves them. -/
def filesAfter (fs : Files) : List Event → Files
  | [] => fs
  | .change files :: rest => filesAfter files rest
  | .ask _ _ :: rest => filesAfter fs rest

/-- The answers of a session, each with the path that it is about. -/
def answers (fs : Files) (known : Contents) : List Event → List (String × Answer)
  | [] => []
  | .change files :: rest => answers files known rest
  | .ask path question :: rest =>
    (path, (known.ask fs path question).1) :: answers fs (known.ask fs path question).2 rest

/-- What is known after a session. -/
def knownAfter (fs : Files) (known : Contents) : List Event → Contents
  | [] => known
  | .change files :: rest => knownAfter files known rest
  | .ask path question :: rest => knownAfter fs (known.ask fs path question).2 rest

/-- The answers about one path. -/
def answersTo (path : String) (all : List (String × Answer)) : List Answer :=
  (all.filter fun e => e.1 = path).map Prod.snd

/-- What is asked about one path, with the files as they are at that moment. -/
def callsOn (path : String) (fs : Files) : List Event → List (Files × Question)
  | [] => []
  | .change files :: rest => callsOn path files rest
  | .ask other question :: rest =>
    if other = path then (fs, question) :: callsOn path fs rest else callsOn path fs rest

/-- The answers from one snapshot: a question is answered by its own failure to open the file until the file is opened
once, and from then on all questions are answered from the bytes found by that opening. -/
def snapshotAnswers (path : String) : List (Files × Question) → List Answer
  | [] => []
  | (fs, question) :: rest =>
    match fs.read path with
    | .error f => question.answer path (.error f) :: snapshotAnswers path rest
    | .ok content =>
      question.answer path (.ok content) :: rest.map fun call => call.2.answer path (.ok content)

variable {known : Contents} {fs : Files} {path : String}

theorem drop_take_eq_slice {content : Bytes} {low high : Int} (hl : 0 ≤ low) (hle : low ≤ high) :
    (content.drop low.toNat).take (high - low).toNat = content.slice low high := by
  have hsize : (high - low).toNat = high.toNat - low.toNat := by omega
  rw [Bytes.slice_of_nonneg hl (by omega), List.drop_take, hsize]

/-- All questions are answered from one reading of the file, and only that reading changes what is known. -/
theorem ask_eq (question : Question) :
    known.ask fs path question = (question.answer path (known.read fs path).1, (known.read fs path).2) := by
  rcases hread : known.read fs path with ⟨bytes, after⟩
  cases question with
  | bytes => simp [ask, Question.answer, hread]
  | fragment low high =>
    cases bytes with
    | error f => simp [ask, fragment, Question.answer, hread]
    | ok content =>
      by_cases h : 0 ≤ low ∧ low ≤ high ∧ high ≤ content.length
      · simp [ask, fragment, Question.answer, hread, h, drop_take_eq_slice h.1 h.2.1]
      · simp [ask, fragment, Question.answer, hread, h]
  | position offset => cases bytes <;> simp [ask, position, Question.answer, hread, Except.map]

theorem ask_of_known {content : Bytes} (h : Table.get? known path = some content) (question : Question) :
    known.ask fs path question = (question.answer path (.ok content), known) := by
  rw [ask_eq, read, h]

theorem ask_of_opened {content : Bytes} (h : Table.get? known path = none) (opened : fs.read path = .ok content)
    (question : Question) :
    known.ask fs path question = (question.answer path (.ok content), Table.put known path content) := by
  rw [ask_eq, read, h, opened]

theorem ask_of_failed {f : AccessFault} (h : Table.get? known path = none) (failed : fs.read path = .error f)
    (question : Question) : known.ask fs path question = (question.answer path (.error f), known) := by
  rw [ask_eq, read, h, failed]

/-- A question about one path does not change what is known of another. -/
theorem get?_ask_other {other : String} (h : other ≠ path) (question : Question) :
    Table.get? (known.ask fs other question).2 path = Table.get? known path := by
  rw [ask_eq]
  unfold read
  cases Table.get? known other with
  | some content => rfl
  | none =>
    cases fs.read other with
    | error f => rfl
    | ok content => simp [Table.get?_put, h]

/-- What is asked about a path is answered from the bytes known of it, or from one snapshot if nothing is known yet. -/
theorem answersTo_answers (fs : Files) (known : Contents) (path : String) (events : List Event) :
    answersTo path (answers fs known events) =
      match Table.get? known path with
      | some content => (callsOn path fs events).map fun call => call.2.answer path (.ok content)
      | none => snapshotAnswers path (callsOn path fs events) := by
  induction events generalizing fs known with
  | nil => cases Table.get? known path <;> rfl
  | cons event rest ih =>
    cases event with
    | change files => exact ih files known
    | ask other question =>
      by_cases hp : other = path
      · subst hp
        have hhead : ∀ answer others, answersTo other ((other, answer) :: others) = answer :: answersTo other others := by
          intro answer others
          simp [answersTo]
        rw [answers, hhead, ih, callsOn, if_pos rfl]
        cases hk : Table.get? known other with
        | some content => rw [ask_of_known hk]; simp [hk]
        | none =>
          cases hr : fs.read other with
          | error f => rw [ask_of_failed hk hr]; simp [hk, hr, snapshotAnswers]
          | ok content => rw [ask_of_opened hk hr]; simp [hr, snapshotAnswers, Table.get?_put]
      · have hhead : ∀ answer others, answersTo path ((other, answer) :: others) = answersTo path others := by
          intro answer others
          simp [answersTo, hp]
        rw [answers, hhead, ih, callsOn, if_neg hp, get?_ask_other hp]

/-- What is known of a path is what the first reading of it that succeeded has found. -/
theorem get?_knownAfter (fs : Files) (known : Contents) (path : String) (events : List Event) :
    Table.get? (knownAfter fs known events) path =
      (Table.get? known path).or ((callsOn path fs events).findSome? fun call => (call.1.read path).toOption) := by
  induction events generalizing fs known with
  | nil => simp [knownAfter, callsOn]
  | cons event rest ih =>
    cases event with
    | change files => exact ih files known
    | ask other question =>
      by_cases hp : other = path
      · subst hp
        rw [knownAfter, ih, callsOn, if_pos rfl]
        cases hk : Table.get? known other with
        | some content => rw [ask_of_known hk, hk]; rfl
        | none =>
          cases hr : fs.read other with
          | error f => rw [ask_of_failed hk hr, hk]; simp [hr, Except.toOption]
          | ok content => rw [ask_of_opened hk hr]; simp [hr, Except.toOption, Table.get?_put]
      · rw [knownAfter, ih, callsOn, if_neg hp, get?_ask_other hp]

theorem callsOn_append (path : String) (fs : Files) (events later : List Event) :
    callsOn path fs (events ++ later) = callsOn path fs events ++ callsOn path (filesAfter fs events) later := by
  induction events generalizing fs with
  | nil => rfl
  | cons event rest ih =>
    cases event with
    | change files => exact ih files
    | ask other question =>
      rw [List.cons_append, callsOn, callsOn, filesAfter, ih]
      split <;> rfl

/-- A session sees one snapshot of each file. What is asked about a path is answered by failures until the file is opened
once and from then on from the bytes that were found there, also after a span that does not fit. A question that cannot
open the file changes nothing of what is known, and what is asked about other paths makes no difference. -/
theorem seen_as_one_snapshot (fs : Files) (path : String) (events : List Event) :
    answersTo path (answers fs [] events) = snapshotAnswers path (callsOn path fs events) ∧
    (∀ question f, (∀ call ∈ callsOn path fs events, ∃ f, call.1.read path = .error f) →
      (filesAfter fs events).read path = .error f →
        (knownAfter fs [] events).ask (filesAfter fs events) path question =
          (question.answer path (.error f), knownAfter fs [] events)) ∧
    ∀ other question later, other ≠ path →
      answersTo path (answers fs [] (events ++ .ask other question :: later)) =
        answersTo path (answers fs [] (events ++ later)) := by
  refine ⟨answersTo_answers fs [] path events, ?_, ?_⟩
  · intro question f hearlier hnow
    have hnothing : (callsOn path fs events).findSome? (fun call => (call.1.read path).toOption) = none := by
      rw [List.findSome?_eq_none_iff]
      intro call hcall
      obtain ⟨f', hf'⟩ := hearlier call hcall
      rw [hf']
      rfl
    have hunknown : Table.get? (knownAfter fs [] events) path = none := by
      rw [get?_knownAfter, hnothing]
      rfl
    exact ask_of_failed hunknown hnow question
  · intro other question later hother
    have hcalls : callsOn path fs (events ++ .ask other question :: later) = callsOn path fs (events ++ later) := by
      rw [callsOn_append, callsOn_append, callsOn, if_neg hother]
    rw [answersTo_answers, answersTo_answers, hcalls]

/-! A file that is written after it was asked for, read, overwritten and deleted. -/

namespace Overwritten

def empty : Files := ⟨[(["s"], .directory)], []⟩

def first : Files := empty.put ["s", "a.c"] (.file (Bytes.ofText "int a;\n"))

def second : Files := first.put ["s", "a.c"] (.file (Bytes.ofText "long b;\n\n"))

def session : List Event := [
  .ask "/s/a.c" .bytes, .change first, .ask "/s/a.c" (.fragment 4 9), .change second, .ask "/s/a.c" .bytes,
  .ask "/s/../s/a.c" .bytes, .change (second.remove ["s", "a.c"]), .ask "/s/a.c" (.fragment 4 5),
  .ask "/s/a.c" (.position 7)]

end Overwritten

theorem overwritten_seen_once :
    answersTo "/s/a.c" (answers Overwritten.empty [] Overwritten.session) = [
        .bytes (.error (.refused .noEntry "/s/a.c")),
        .fragment (.error (.outside 4 9 "/s/a.c" 7)),
        .bytes (.ok (Bytes.ofText "int a;\n")),
        .fragment (.ok (Bytes.ofText "a")),
        .position (.ok ⟨2, 1⟩)] ∧
      answersTo "/s/../s/a.c" (answers Overwritten.empty [] Overwritten.session) =
        [.bytes (.ok (Bytes.ofText "long b;\n\n"))] := by
  obtain ⟨hseen, -, -⟩ := seen_as_one_snapshot Overwritten.empty "/s/a.c" Overwritten.session
  obtain ⟨hother, -, -⟩ := seen_as_one_snapshot Overwritten.empty "/s/../s/a.c" Overwritten.session
  rw [hseen, hother]
  exact ⟨by decide +kernel, by decide +kernel⟩

end Contents
end ThreadLocal
