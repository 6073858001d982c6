import ThreadLocal.Proofs.Work.Outcome

/-!
What is written on one side of a pipe is understood on the other: answers by the pool, requests by the workers.
-/

namespace ThreadLocal

/-- Whatever proposals an answer is made of, it is ASCII and is decoded as these proposals, in their order, also when
it is sent as a line. -/
theorem answer_arrives_as_sent (proposals : List Proposal) :
    (∀ c ∈ (Response.encode proposals).toList, IsAscii c) ∧
      Response.decode (Response.encode proposals) = .ok proposals ∧
      Response.decode (Response.encode proposals ++ "\n") = .ok proposals ∧
      Pool.answer (Bytes.ofText (Response.encode proposals ++ "\n")) = .ok proposals := by
  have hbare := @Response.decode_encode_append proposals "" rfl Json.stops_nil
  rw [String.append_empty] at hbare
  have hline := @Response.decode_encode_append proposals "\n" rfl (Json.stops_cons (by decide))
  exact ⟨fun c hc => (Response.isPrintable_of_encode proposals c hc).isAscii, hbare, hline, Pool.answer_encode proposals⟩

/-- A worker that sends some proposals, whatever it is asked. -/
def Workers.sending (proposals : List Proposal) : Workers := fun _ _ _ =>
  .ok ⟨false, true, Bytes.ofText (Response.encode proposals ++ "\n"), 0, ""⟩

/-- Any list of proposals can be what is collected. -/
theorem collect_sending (command : List String) (proposals : List Proposal) {work : WorkItem} {file : String}
    (single : work.sourceFiles = [file]) :
    (collect command (.sending proposals) work 1).outcome = .ok proposals := by
  have hcut : shards work.sourceFiles 1 = .ok [[file]] := by
    rw [single]
    exact @shards_singletons _ [file] (List.cons_ne_nil file []) (Nat.one_lt_two_pow (by decide))
  simp only [collect, hcut]
  simp [Workers.sending, WorkItem.withSourceFiles, Pool.launch, Pool.gather, Running.answer, Pool.answer_encode,
    Except.mapError, Except.map]

namespace Pool

/-- Requests are written for the items of started workers only. -/
theorem Closes.item_of_request {command : List String} {running : List Running} {announced : Notice}
    {steps : List Step} (h : Closes running steps) {request : String}
    (sent : request ∈
      (.said announced :: running.flatMap (Running.handOver command) ++ steps).filterMap Step.request?) :
    ∃ r ∈ running, request = (Request.ofItem r.item).text := by
  rw [filterMap_of_quiet fun s hs => (h.quiet s hs).2] at sent
  simp only [List.filterMap_cons, Step.request?, List.filterMap_flatMap, requests_handOver, List.mem_flatMap] at sent
  obtain ⟨r, hr, hrequest⟩ := sent
  split at hrequest
  · cases hrequest
  · exact ⟨r, hr, List.mem_singleton.mp hrequest⟩

end Pool

/-- Every request of a collection is that of a shard of its source files. -/
theorem shard_of_request {command : List String} {workers : Workers} {work : WorkItem} {parallelism : Int}
    {request : String} (sent : request ∈ (collect command workers work parallelism).steps.filterMap Step.request?) :
    ∃ parts part, shards work.sourceFiles parallelism = .ok parts ∧ part ∈ parts ∧
      request = (Request.ofItem (work.withSourceFiles part)).text := by
  cases hcut : shards work.sourceFiles parallelism with
  | error f => simp [collect, hcut] at sent
  | ok parts =>
    -- whichever way the collection goes, its requests are those of workers that were started for some shards
    have hstarted : ∃ r : Running, r.item ∈ parts.map work.withSourceFiles ∧
        request = (Request.ofItem r.item).text := by
      rcases collect_cases command workers hcut with ⟨running, answers, hstaffed, -, hcollect⟩ |
        ⟨before, item, after, running, fault, hsplit, hstaffed, -, hcollect⟩ |
        ⟨before, r, after, f, hstaffed, -, -, hcollect⟩
      · rw [hcollect] at sent
        obtain ⟨r, hr, hrequest⟩ := (Pool.closes_of_answers running _).item_of_request sent
        exact ⟨r, hstaffed.items_eq ▸ List.mem_map_of_mem hr, hrequest⟩
      · rw [hcollect] at sent
        obtain ⟨r, hr, hrequest⟩ := (Pool.closes_of_refusal running _).item_of_request sent
        have hitem : r.item ∈ before := hstaffed.items_eq ▸ List.mem_map_of_mem hr
        exact ⟨r, hsplit ▸ List.mem_append_left _ hitem, hrequest⟩
      · rw [hcollect] at sent
        obtain ⟨r, hr, hrequest⟩ := (Pool.closes_of_failure before after _).item_of_request sent
        exact ⟨r, hstaffed.items_eq ▸ List.mem_map_of_mem hr, hrequest⟩
    obtain ⟨r, hr, hrequest⟩ := hstarted
    obtain ⟨part, hpart, hitem⟩ := List.mem_map.mp hr
    exact ⟨parts, part, rfl, hpart, hitem ▸ hrequest⟩

/-- A request is an ASCII text, the text of an object with three fields, and is read as the work item it was made of.
The requests of a collection are those of the shards, and from the bytes of each a worker reads the files of this shard,
and the include paths and the root of all. -/
theorem request_arrives_as_sent (w : WorkItem) :
    (∀ c ∈ (Request.ofItem w).text.toList, IsAscii c) ∧
      (∃ fields, Json.read (Request.ofItem w).text = .ok (.obj fields) ∧
        Table.keys fields = ["includePaths", "sourceFiles", "sourceRoot"]) ∧
      Request.read (Request.ofItem w).text = .ok ⟨some w.includePaths, some w.sourceFiles, some w.sourceRoot⟩ ∧
      (∀ command workers parallelism request,
        request ∈ (collect command workers w parallelism).steps.filterMap Step.request? →
          ∃ parts part, shards w.sourceFiles parallelism = .ok parts ∧ part ∈ parts ∧
            request = (Request.ofItem (w.withSourceFiles part)).text) ∧
      ∀ part, ∃ cs, Utf8.decode (Bytes.ofText (Request.ofItem (w.withSourceFiles part)).text) = .ok cs ∧
        Request.read (String.ofList (unifyLineEnds cs)) = .ok ⟨some w.includePaths, some part, some w.sourceRoot⟩ := by
  have hexact := Request.exact_toJson w
  refine ⟨fun c hc => (Json.isPrintable_of_text hexact c hc).isAscii, ⟨_, Json.read_text hexact, rfl⟩,
    Request.read_text w, fun _ _ _ _ sent => shard_of_request sent, ?_⟩
  intro part
  obtain ⟨hdecode, hlines⟩ := Request.decode_text (w.withSourceFiles part)
  refine ⟨_, hdecode, ?_⟩
  rw [hlines, String.ofList_toList]
  exact Request.read_text (w.withSourceFiles part)

end ThreadLocal
