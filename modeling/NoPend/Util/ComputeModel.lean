import NoPend.Lib.Dict
import NoPend.Util.CAResolver

set_option autoImplicit false

/- The file of a model: `computeModel.py` writes it, `computeMFS.py` and `CSVResolver` read it. -/
namespace NoPend

open ComputeSafeValue ComputeMFS CSVResolver CAResolver

/-- The text that `generate_csv_for_file` writes. `external_macros` are the names in the order in
which the set is walked. -/
def ComputeModel.modelText (external_macros : List Cell) : Cell :=
  "parameter,name\n".toList ++
    external_macros.zipIdx.flatMap fun name => digits name.2 ++ [','] ++ name.1 ++ ['\n']

namespace ComputeMFS

/-- The sign of a number and what stands after it. -/
def pySign : Cell → Bool × Cell
  | '-' :: rest => (true, rest)
  | '+' :: rest => (false, rest)
  | other => (false, other)

/-- Python's `int`, on ASCII digits: white space around the number, a sign and single underscores
between digits are allowed. -/
def pyInt (text : Cell) : Option Int :=
  let negative := (pySign (strip text)).1
  let digits := (pySign (strip text)).2
  if (digits.splitOnP (· == '_')).all fun group => !group.isEmpty && group.all Char.isDigit then
    let magnitude : Int := (digits.filter (· ≠ '_')).foldl
      (fun value d => 10 * value + (d.toNat - 48 : Nat)) 0
    some (if negative then -magnitude else magnitude)
  else none

/-- The body of the loop over the rows after the first: `param_dict[param_name] = param_num`. -/
def readParam (param_dict : Dict Cell Int) : List Cell → Option (Dict Cell Int)
  | num :: name :: _ => do
      let param_num ← pyInt num
      return param_dict.update (strip name) fun _ => param_num
  | _ => some param_dict

/-- The names of a model file in the order of their numbers, unless the file is given up: because
it is empty, a number cannot be read, or the numbers are not `0, 1, ..`. -/
def readModel (text : Cell) : Option (List Cell) := do
  match csvRows text with
  | [] => none
  | _ :: reader =>
      let param_dict ← reader.foldlM readParam Dict.empty
      if param_dict.entries.isEmpty then none
      let ordered := param_dict.entries.insertionSort fun a b => a.2 ≤ b.2
      if ordered.map Prod.snd ≠ (List.range ordered.length).map Int.ofNat then none
      return ordered.map Prod.fst

end ComputeMFS

variable {params : List Cell}

/-- The file of a model as rows. -/
def modelRows (params : List Cell) : List (List Cell) :=
  ["parameter".toList, "name".toList] :: params.zipIdx.map fun param => [digits param.2, param.1]

theorem header_eq : "parameter,name\n".toList =
    List.intercalate [','] ["parameter".toList, "name".toList] ++ ['\n'] := by rfl

theorem modelText_eq (params : List Cell) :
    ComputeModel.modelText params = csvText ['\n'] (modelRows params) := by
  unfold ComputeModel.modelText csvText modelRows
  rw [List.flatMap_cons, List.flatMap_map, header_eq]
  refine congrArg _ (List.flatMap_congr fun param _ => ?_)
  rw [List.intercalate_cons_cons, List.intercalate_singleton]

theorem modelRows_clean (names : ∀ name ∈ params, IsName name) :
    CleanRows (modelRows params) := by
  have number : ∀ i, digits i ≠ [] ∧ ∀ c ∈ digits i, c ∉ [',', '"', '\r', '\n'] := by
    refine fun i => ⟨digits_ne_nil i, fun c member => ?_⟩
    have solid := digits_solid member
    simp only [List.mem_cons, List.not_mem_nil, or_false, not_or]
    refine ⟨?_, ?_, ?_, ?_⟩ <;> rintro rfl <;> exact absurd solid (by decide)
  have word : ∀ name ∈ params,
      name ≠ [] ∧ ∀ c ∈ name, c ∉ [',', '"', '\r', '\n'] := by
    refine fun name member => ⟨(names name member).nonempty, fun c inside => ?_⟩
    obtain ⟨solid, plain⟩ := (names name member).plain c inside
    simp only [List.mem_cons, List.not_mem_nil, or_false, not_or]
    refine ⟨?_, ?_, ?_, ?_⟩ <;> rintro rfl
    · exact plain (by decide)
    · exact plain (by decide)
    · exact absurd solid (by decide)
    · exact absurd solid (by decide)
  have each : ∀ row ∈ modelRows params, row ≠ [] ∧
      ∀ field ∈ row, field ≠ [] ∧ ∀ c ∈ field, c ∉ [',', '"', '\r', '\n'] := by
    intro row member
    rcases List.mem_cons.mp member with rfl | listed
    · simp
    · obtain ⟨⟨name, i⟩, there, rfl⟩ := List.mem_map.mp listed
      refine ⟨List.cons_ne_nil _ _, fun field inside => ?_⟩
      simp only [List.mem_cons, List.not_mem_nil, or_false] at inside
      rcases inside with rfl | rfl
      · exact number i
      · exact word _ (List.fst_mem_of_mem_zipIdx there)
  exact ⟨fun row member => (each row member).1, fun row member field inside =>
    ((each row member).2 field inside).1,
    fun row member field inside => ((each row member).2 field inside).2⟩

/-- The number that was written is read. -/
theorem pyInt_digits (i : Nat) : pyInt (digits i) = some (i : Int) := by
  have bare : strip (digits i) = digits i := by
    refine dropEnds_of_none fun c member => ?_
    have solid := digits_solid member
    simp only [isspace, Bool.or_eq_false_iff, Bool.and_eq_false_iff, decide_eq_false_iff_not,
      beq_eq_false_iff_ne]
    omega
  have sign : ∀ c ∈ digits i, c ≠ '-' ∧ c ≠ '+' ∧ c ≠ '_' := by
    refine fun c member =>
      ⟨?_, ?_, ?_⟩ <;> rintro rfl <;> exact absurd (digits_solid member) (by decide)
  have shape : pySign (strip (digits i)) = (false, digits i) := by
    rw [bare]
    unfold pySign
    split
    · rename_i here
      exact absurd rfl (sign '-' (by rw [here]; simp)).1
    · rename_i here
      exact absurd rfl (sign '+' (by rw [here]; simp)).2.1
    · rfl
  have group : (digits i).splitOnP (· == '_') = [digits i] :=
    List.splitOnP_eq_singleton fun c member => by simpa using (sign c member).2.2
  have all : (digits i).all Char.isDigit = true := List.all_eq_true.mpr fun c => digits_isDigit
  have kept : (digits i).filter (· ≠ '_') = digits i := by
    rw [List.filter_eq_self]
    exact fun c member => by simpa using (sign c member).2.2
  have value := foldl_digits (digits i) 0
  rw [digits, Nat.ofDigitChars_ten_toDigits, ← digits, Nat.cast_zero] at value
  unfold pyInt
  rw [shape]
  simp only [group, kept, value, List.all_cons, List.all_nil, Bool.and_true]
  rw [if_pos (by simpa [digits_ne_nil] using all)]
  rfl

/-- The loop over the rows of distinct names takes them as they come. -/
theorem readParam_rows (names : ∀ name ∈ params, IsName name) (distinct : params.Nodup)
    (start : Nat)
    (param_dict : Dict Cell Int)
    (new : ∀ name ∈ params, name ∉ param_dict.entries.map Prod.fst) :
    ∃ final, ((params.zipIdx start).map fun param => [digits param.2, param.1]).foldlM readParam
        param_dict = some final ∧
      final.entries = param_dict.entries ++ (params.zipIdx start).map fun param =>
        (param.1, (param.2 : Int)) := by
  induction params generalizing start param_dict with
  | nil => exact ⟨param_dict, rfl, by simp⟩
  | cons name params ih =>
      have bare : strip name = name :=
        dropEnds_of_none fun c member => ((names name (by simp)).plain c member).1
      have read : readParam param_dict [digits start, name] =
          some (param_dict.update name fun _ => (start : Int)) := by
        rw [readParam, pyInt_digits, bare]
        rfl
      have entries := param_dict.entries_update (new name (by simp)) fun _ => (start : Int)
      have fresh : ∀ other ∈ params,
          other ∉ (param_dict.update name fun _ => (start : Int)).entries.map Prod.fst := by
        intro other member
        rw [entries, List.map_append, List.mem_append, not_or]
        refine ⟨new other (List.mem_cons_of_mem _ member), fun here => ?_⟩
        rw [List.mem_singleton.mp here] at member
        exact (List.nodup_cons.mp distinct).1 member
      obtain ⟨final, later, all⟩ :=
        ih (fun other member => names other (List.mem_cons_of_mem _ member))
          (List.nodup_cons.mp distinct).2 (start + 1) _ fresh
      refine ⟨final, ?_, ?_⟩
      · rw [List.zipIdx_cons, List.map_cons, List.foldlM_cons, read]
        exact later
      · rw [all, entries, List.zipIdx_cons, List.map_cons, List.append_assoc]
        rfl

/-- The names of a model are read back in their order. -/
theorem readModel_modelText (some : params ≠ []) (names : ∀ name ∈ params, IsName name)
    (distinct : params.Nodup) : readModel (ComputeModel.modelText params) = .some params := by
  have rows : csvRows (ComputeModel.modelText params) = modelRows params := by
    rw [modelText_eq]
    exact (modelRows_clean names).csvRows (.inl rfl)
  obtain ⟨param_dict, read, entries⟩ :=
    readParam_rows names distinct 0 Dict.empty (by simp [Dict.empty])
  have sorted : (params.zipIdx.map fun param => (param.1, (param.2 : Int))).insertionSort
      (fun a b => a.2 ≤ b.2) = params.zipIdx.map fun param => (param.1, (param.2 : Int)) := by
    refine List.Pairwise.insertionSort_eq ?_
    rw [List.pairwise_map]
    have ascending : (params.zipIdx.map Prod.snd).Pairwise (· ≤ ·) := by
      rw [List.zipIdx_map_snd]
      exact List.pairwise_le_range'
    exact (List.pairwise_map.mp ascending).imp fun less => Int.ofNat_le.mpr less
  have numbers : (params.zipIdx.map fun param => (param.1, (param.2 : Int))).map Prod.snd =
      (List.range params.length).map Int.ofNat := by
    rw [List.map_map, List.range_eq_range', ← List.zipIdx_map_snd, List.map_map]
    rfl
  have back : (params.zipIdx.map fun param => (param.1, (param.2 : Int))).map Prod.fst =
      params := by
    rw [List.map_map]
    exact List.zipIdx_map_fst 0 params
  rw [Dict.empty, List.nil_append] at entries
  simp only [readModel, rows, modelRows, read, entries, Option.bind_eq_bind,
    Option.bind_some, sorted, numbers, List.length_map, List.length_zipIdx, back]
  simp [some]

/-- Java counts the same parameters. -/
theorem readParameterValues_modelText (names : ∀ name ∈ params, IsName name) {files : Files}
    {path : Cell} (there : files path = some (ComputeModel.modelText params)) :
    files.readParameterValues path = .ok (params.map fun name => (trim name, 2)) := by
  have split := (modelRows_clean names).splitCommas (.inl rfl)
  rw [← modelText_eq] at split
  rw [Files.readParameterValues, Files.newBufferedReader, there]
  refine congrArg Except.ok ?_
  have rows : (textLines (ComputeModel.modelText params)).tail.map Files.splitCommas =
      params.zipIdx.map fun param => [digits param.2, param.1] := by
    rw [List.map_tail, split]
    rfl
  calc (textLines (ComputeModel.modelText params)).tail.filterMap
        (fun line => (Files.splitCommas line)[1]?.map fun name => (trim name, 2))
      = ((textLines (ComputeModel.modelText params)).tail.map Files.splitCommas).filterMap
          (fun row => row[1]?.map fun name => (trim name, 2)) := by rw [List.filterMap_map]; rfl
    _ = params.zipIdx.map (fun param => (trim param.1, 2)) := by
        rw [rows, List.filterMap_map, ← List.filterMap_eq_map]
        rfl
    _ = (params.zipIdx.map Prod.fst).map (fun name => (trim name, 2)) := by
        rw [List.map_map]
        rfl
    _ = params.map fun name => (trim name, 2) := by rw [List.zipIdx_map_fst]

end NoPend
