import GraphIngest.Analysis.FilePass

/-! # Chunks of a file

A chunk of which a reply is accepted has a summary for each of its functions, once, and no other;
a chunk whose replies are refused has none. What a worker hands back of a file has therefore a row
for each function of the chunks that were accepted, with the hash of the body that was asked about,
and its calls are at most two for a chunk.
-/

namespace GraphIngest.Analysis

open Foundation Graph

section Replies

variable {payload : Json} {expected : List Str} {rows : List Json}

/-- The summaries of a reply that is accepted are those that were asked for, each once. -/
theorem perm_of_validate (accepted : validate payload expected = .ok rows) :
    (rows.map idOf).Perm (expected.dedup.map fun id => some (.string id)) := by
  by_cases shaped : ∃ rows, payload.get? "summaries".toList = some (.array rows)
  case neg =>
    obtain ⟨fault, refused⟩ := @validate_of_unread payload expected
      fun rows read => shaped ⟨rows, read⟩
    rw [accepted] at refused
    cases refused
  obtain ⟨raw, read⟩ := shaped
  have unfolded := accepted.symm.trans (validate_of_read read)
  cases checked : checkIds expected.dedup [] raw with
  | error fault =>
      rw [checked] at unfolded
      cases unfolded
  | ok seen =>
      obtain ⟨ids, passes, rfl⟩ := checkIds_eq_ok.mp checked
      cases validate_of_passes read passes with
      | inl short =>
          obtain ⟨fault, refused⟩ := short.2
          rw [accepted] at refused
          cases refused
      | inr whole =>
          obtain ⟨whole, nested⟩ := whole
          rw [accepted] at nested
          obtain ⟨placed, made, kept⟩ := bind_eq_ok.mp nested.symm
          obtain ⟨_, _, rfl⟩ := map_eq_ok.mp kept
          cases mapM_nest (objects_of_passes passes) with
          | inl failed =>
              rw [failed.2] at made
              cases made
          | inr succeeded =>
              obtain ⟨_, others, again, same⟩ := succeeded
              rw [made] at again
              cases again
              exact same ▸ perm_of_passes passes whole

/-- What an attempt brings is accepted. -/
theorem validate_of_attempt {res : LLMResult} (brought : res.attempt expected = .ok (some rows)) :
    ∃ payload, validate payload expected = .ok rows := by
  unfold LLMResult.attempt at brought
  split at brought
  case isFalse => cases brought
  split at brought
  · cases brought
  · next members _ =>
    split at brought
    · next rows accepted =>
      cases brought
      exact ⟨.object members, accepted⟩
    · cases brought
    · cases brought

end Replies

section Chunks

variable {expected : List Str}

/-- What comes of a chunk: nothing, by all the attempts there are, or the summaries of a reply
that is accepted, by some of them. -/
structure Run (expected : List Str) (attempts : List LLMResult)
    (out : List Json × List LLMResult) : Prop where
  first : out.2 <+: attempts
  some : attempts ≠ [] → out.2 ≠ []
  outcome : out.1 = [] ∨ ∃ payload, validate payload expected = .ok out.1

theorem run_runChunk {attempts : List LLMResult} {out : List Json × List LLMResult}
    (ran : runChunk expected attempts = .ok out) : Run expected attempts out := by
  induction attempts generalizing out with
  | nil =>
      cases ran
      exact ⟨List.prefix_rfl, id, .inl rfl⟩
  | cons res later ih =>
      obtain ⟨tried, attempted, ran⟩ := bind_eq_ok.mp ran
      cases tried with
      | some rows =>
          cases ran
          exact ⟨List.cons_prefix_cons.mpr ⟨rfl, List.nil_prefix⟩, fun _ => List.cons_ne_nil _ _,
            .inr (validate_of_attempt attempted)⟩
      | none =>
          obtain ⟨rest, again, ran⟩ := bind_eq_ok.mp ran
          cases ran
          have run := ih again
          exact ⟨List.cons_prefix_cons.mpr ⟨rfl, run.first⟩, fun _ => List.cons_ne_nil _ _,
            run.outcome⟩

variable {chunk : List FunctionRow}

/-- The row that is stored for a summary is that of a function of the chunk. -/
structure StoredOf (chunk : List FunctionRow) (row : SummaryRow) : Prop where
  known : ∃ asked ∈ chunk, row.id = asked.id ∧ row.bodyHash = asked.bodyHash.getD []

/-- What is stored for a summary with the id of a function of the chunk. -/
theorem storedRow_of_named {asked : FunctionRow} (listed : asked ∈ chunk) {summary : Json}
    (named : idOf summary = some (.string asked.id.val)) :
    ∃ row, storedRow chunk summary = some row ∧ row.id = asked.id ∧ StoredOf chunk row := by
  have wanted : ∀ other : FunctionRow, (idOf summary).any (isWord other.id.val) = true ↔
      asked.id = other.id := by
    intro other
    rw [named, Option.any_some, isWord, beq_iff_eq]
    exact Subtype.val_inj
  have there : (chunk.find? fun row => (idOf summary).any (isWord row.id.val)).isSome = true :=
    List.find?_isSome.mpr ⟨asked, listed, (wanted asked).mpr rfl⟩
  obtain ⟨found, held⟩ := Option.isSome_iff_exists.mp there
  have test := List.find?_some held
  have same := (wanted found).mp test
  refine ⟨_, by rw [storedRow, held]; rfl, same.symm, ⟨found, List.mem_of_find?_eq_some held, rfl,
    rfl⟩⟩

/-- The rows that are stored for summaries of all the functions of a chunk. -/
theorem filterMap_storedRow {rows : List Json}
    (named : ∀ row ∈ rows, ∃ asked ∈ chunk, idOf row = some (.string asked.id.val)) :
    (rows.filterMap (storedRow chunk)).map (fun row => some (Json.string row.id.val)) =
        rows.map idOf ∧
      ∀ row ∈ rows.filterMap (storedRow chunk), StoredOf chunk row := by
  induction rows with
  | nil => exact ⟨rfl, fun row listed => (List.not_mem_nil listed).elim⟩
  | cons summary rest ih =>
      obtain ⟨⟨asked, listed, own⟩, others⟩ := List.forall_mem_cons.mp named
      obtain ⟨row, stored, same, of⟩ := storedRow_of_named listed own
      obtain ⟨ids, all⟩ := ih others
      rw [List.filterMap_cons_some stored, List.map_cons, List.map_cons, ids, own, same]
      exact ⟨rfl, List.forall_mem_cons.mpr ⟨of, all⟩⟩

/-- What is stored of a chunk that is accepted: each function once. -/
theorem perm_of_accepted (distinct : (chunk.map FunctionRow.id).Nodup) {rows : List Json}
    (accepted : (rows.map idOf).Perm ((chunk.map fun row => row.id.val).dedup.map fun id =>
      some (Json.string id))) :
    ((rows.filterMap (storedRow chunk)).map SummaryRow.id).Perm (chunk.map FunctionRow.id) ∧
      ∀ row ∈ rows.filterMap (storedRow chunk), StoredOf chunk row := by
  have words : (chunk.map fun row => row.id.val).Nodup := by
    have mapped := distinct.map Subtype.val_injective
    rwa [List.map_map] at mapped
  rw [List.Nodup.dedup words, List.map_map] at accepted
  have named : ∀ row ∈ rows, ∃ asked ∈ chunk, idOf row = some (.string asked.id.val) := by
    intro row listed
    obtain ⟨asked, member, same⟩ := List.mem_map.mp
      (accepted.mem_iff.mp (List.mem_map_of_mem listed))
    exact ⟨asked, member, same.symm⟩
  obtain ⟨ids, all⟩ := filterMap_storedRow named
  refine ⟨?_, all⟩
  have shown : Function.Injective fun id : NodeId => some (Json.string id.val) := by
    intro first second same
    exact Subtype.val_injective (Json.string.inj (Option.some.inj same))
  refine (List.map_perm_map_iff shown).mp ?_
  rw [List.map_map, List.map_map]
  exact ids.symm ▸ accepted

end Chunks

section Outcomes

variable {context : PassContext} {entry : FileRow}

/-- What has come of the chunks of a file that are done: some were accepted and the others
refused, and every function of those accepted has a row. -/
structure Worked (done : List (List FunctionRow)) (out : FileOutcome) : Prop where
  split : ∃ accepted refused : List (List FunctionRow), (accepted ++ refused).Perm done ∧
    (out.rows.map SummaryRow.id).Perm (accepted.flatten.map FunctionRow.id) ∧
      out.rejected = refused.length
  stored : ∀ row ∈ out.rows, StoredOf done.flatten row
  calls : out.calls = out.results.length
  least : done.length ≤ out.calls
  most : out.calls ≤ 2 * done.length
  rereads : out.calls = out.rereads + if done = [] then 0 else 1

theorem worked_empty : Worked [] {} where
  split := ⟨[], [], .refl _, .refl _, rfl⟩
  stored := fun _ listed => (List.not_mem_nil listed).elim
  calls := rfl
  least := le_refl _
  most := le_refl _
  rereads := rfl

/-- One more chunk. -/
theorem Worked.takeChunk {done : List (List FunctionRow)} {out after : FileOutcome}
    (worked : Worked done out) {chunk : List FunctionRow}
    (distinct : (chunk.map FunctionRow.id).Nodup)
    (took : takeChunk context entry out (chunk, done.length) = .ok after) :
    Worked (done ++ [chunk]) after := by
  obtain ⟨made, ran, took⟩ := bind_eq_ok.mp took
  have run := run_runChunk ran
  have some : made.2 ≠ [] := run.some (List.cons_ne_nil _ _)
  have two : made.2.length ≤ 2 := run.first.length_le
  have one := List.length_pos_iff.mpr some
  have length : (done ++ [chunk]).length = done.length + 1 := by
    rw [List.length_append, List.length_singleton]
  have start : done.length = 0 ↔ done = [] := List.length_eq_zero_iff
  have calls : out.calls + made.2.length = (out.results ++ made.2).length := by
    rw [List.length_append, worked.calls]
  have rereads : out.calls + made.2.length =
      (out.rereads + if done.length = 0 then made.2.length - 1 else made.2.length) +
        if done ++ [chunk] = [] then 0 else 1 := by
    have counted := worked.rereads
    have appended : done ++ [chunk] ≠ [] := List.concat_ne_nil _ _
    rw [if_neg appended]
    by_cases none : done = []
    · rw [if_pos none] at counted
      rw [if_pos (start.mpr none)]
      omega
    · rw [if_neg none] at counted
      rw [if_neg (start.not.mpr none)]
      omega
  have kept : ∀ row ∈ out.rows, StoredOf (done ++ [chunk]).flatten row := by
    intro row listed
    obtain ⟨asked, member, same⟩ := (worked.stored row listed).known
    exact ⟨asked, by rw [List.flatten_append]; exact List.mem_append_left _ member, same⟩
  obtain ⟨accepted, refused, whole, ids, rejected⟩ := worked.split
  dsimp only at took
  cases empty : made.1.isEmpty with
  | true =>
      rw [empty, if_pos rfl] at took
      cases took
      refine ⟨⟨accepted, refused ++ [chunk], ?_, ids, ?_⟩, kept, calls, ?_, ?_, rereads⟩
      · rw [← List.append_assoc]
        exact whole.append_right [chunk]
      · rw [List.length_append, List.length_singleton, rejected]
      · rw [length]
        exact Nat.add_le_add worked.least one
      · rw [length]
        exact Nat.add_le_add worked.most two
  | false =>
      rw [empty, if_neg Bool.false_ne_true] at took
      cases took
      have listed : made.1 ≠ [] := by
        intro none
        rw [none] at empty
        cases empty
      obtain ⟨payload, valid⟩ := run.outcome.resolve_left listed
      obtain ⟨own, from_⟩ := perm_of_accepted distinct (perm_of_validate valid)
      refine ⟨⟨accepted ++ [chunk], refused, ?_, ?_, rejected⟩, ?_, calls, ?_, ?_, rereads⟩
      · refine List.Perm.trans ?_ (whole.append_right [chunk])
        rw [List.append_assoc, List.append_assoc]
        exact List.perm_append_comm.append_left accepted
      · rw [List.map_append, List.flatten_append, List.map_append, List.flatten_singleton]
        exact ids.append own
      · intro row member
        rcases List.mem_append.mp member with before | now
        · exact kept row before
        · obtain ⟨asked, inside, same⟩ := (from_ row now).known
          refine ⟨asked, ?_, same⟩
          rw [List.flatten_append, List.flatten_singleton]
          exact List.mem_append_right _ inside
      · rw [length]
        exact Nat.add_le_add worked.least one
      · rw [length]
        exact Nat.add_le_add worked.most two

theorem Worked.foldlM {rest : List (List FunctionRow)}
    (distinct : ∀ chunk ∈ rest, (chunk.map FunctionRow.id).Nodup) {done : List (List FunctionRow)}
    {out after : FileOutcome} (worked : Worked done out)
    (ran : (rest.zipIdx done.length).foldlM (Analysis.takeChunk context entry) out = .ok after) :
    Worked (done ++ rest) after := by
  induction rest generalizing done out with
  | nil =>
      cases ran
      exact (List.append_nil done).symm ▸ worked
  | cons chunk rest ih =>
      obtain ⟨own, others⟩ := List.forall_mem_cons.mp distinct
      rw [List.zipIdx_cons, List.foldlM_cons] at ran
      obtain ⟨next, took, ran⟩ := bind_eq_ok.mp ran
      rw [List.append_cons]
      refine ih others (worked.takeChunk own took) ?_
      rwa [List.length_append, List.length_singleton]

/-- What a worker hands back of a job whose functions are distinct. -/
structure Handed (perCall : ℕ+) (job : Job) (out : FileOutcome) : Prop where
  distinct : (out.rows.map SummaryRow.id).Nodup
  stored : ∀ row ∈ out.rows, StoredOf job.pending row
  rereads : job.pending ≠ [] → out.calls = out.rereads + 1
  calls : out.calls = out.results.length
  least : (chunksOf perCall job.pending).length ≤ out.calls
  most : out.calls ≤ 2 * (chunksOf perCall job.pending).length
  rejected : out.rejected = 0 ↔ (out.rows.map SummaryRow.id).Perm (job.pending.map FunctionRow.id)

theorem summarizeFile_of_doFile {store : GraphStore} {job : Job} {out : FileOutcome}
    (done : doFile context store job = .ok out) : summarizeFile context store job = .ok out := by
  unfold doFile at done
  split at done
  · cases done
  · cases made : summarizeFile context store job with
    | error fault =>
        rw [made] at done
        cases done
    | ok out =>
        rw [made] at done
        cases done
        rfl

theorem handed_doFile {store : GraphStore} {job : Job} {out : FileOutcome}
    (distinct : (job.pending.map FunctionRow.id).Nodup)
    (done : doFile context store job = .ok out) : Handed context.perCall job out := by
  obtain ⟨worked, ran, finished⟩ := bind_eq_ok.mp (summarizeFile_of_doFile done)
  obtain ⟨rate, _, finished⟩ := bind_eq_ok.mp finished
  have whole := flatten_chunksOf context.perCall job.pending
  have apart : ∀ chunk ∈ chunksOf context.perCall job.pending,
      (chunk.map FunctionRow.id).Nodup := by
    intro chunk listed
    refine List.Nodup.sublist ((List.sublist_flatten_of_mem listed).map _) ?_
    rwa [whole]
  have chunks := worked_empty.foldlM apart ran
  rw [List.nil_append] at chunks
  cases finished
  obtain ⟨accepted, refused, split, ids, rejected⟩ := chunks.split
  have flat : (accepted.flatten ++ refused.flatten).Perm job.pending := by
    rw [← List.flatten_append, ← whole]
    exact split.flatten
  have rows := ids.nodup_iff.mpr (List.Nodup.sublist
    (List.Sublist.map _ (List.sublist_append_left _ refused.flatten))
    ((flat.map FunctionRow.id).nodup_iff.mpr distinct))
  refine ⟨rows, ?_, fun some => ?_, chunks.calls, chunks.least, chunks.most, ?_⟩
  · rw [← whole]
    exact chunks.stored
  · have counted := chunks.rereads
    rw [if_neg] at counted
    · exact counted
    · intro empty
      rw [empty] at whole
      exact some whole.symm
  · have none : worked.rejected = 0 ↔ refused = [] := by
      rw [rejected, List.length_eq_zero_iff]
    refine none.trans ⟨fun gone => ?_, fun all => ?_⟩
    · rw [gone, List.flatten_nil, List.append_nil] at flat
      exact ids.trans (flat.map _)
    · have lengths := flat.length_eq
      have same := ids.length_eq.symm.trans all.length_eq
      rw [List.length_map, List.length_map] at same
      rw [List.length_append, same] at lengths
      have left : refused.flatten = [] := List.length_eq_zero_iff.mp (Nat.add_eq_left.mp lengths)
      refine List.eq_nil_iff_forall_not_mem.mpr fun chunk listed => ?_
      have member := split.mem_iff.mp (List.mem_append_right accepted listed)
      exact ne_nil_of_mem_chunksOf member (List.flatten_eq_nil_iff.mp left chunk listed)

end Outcomes

end GraphIngest.Analysis
