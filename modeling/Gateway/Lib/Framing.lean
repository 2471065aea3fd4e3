/-
  Gateway.Lib.Framing

  Streams that are cut into segments by an end flag.

  `segments d s` are the pieces of `s` that end with the flag `d`, each with its
  flag, and `unfinished d s` is what follows the last flag.  Both are computed from
  the left, one element at a time, which is how a reader of the stream sees it
  (`segments_concat`, `unfinished_concat`); `mem_segments` and `not_mem_unfinished`
  say that a flag ends every segment and stands nowhere else.
-/

import Mathlib.Data.List.Induction

namespace Gateway.Lib.Framing

variable {α : Type} [DecidableEq α] {d : α}

/-- The next element of the stream, after the segments and the unfinished one. -/
def push (d : α) (s : List (List α) × List α) (a : α) : List (List α) × List α :=
  if a = d then (s.1 ++ [s.2 ++ [a]], []) else (s.1, s.2 ++ [a])

/-- The segments of a stream, each up to and including its flag. -/
def segments (d : α) (stream : List α) : List (List α) := (stream.foldl (push d) ([], [])).1

/-- What follows the last flag. -/
def unfinished (d : α) (stream : List α) : List α := (stream.foldl (push d) ([], [])).2

@[simp] theorem segments_nil : segments d ([] : List α) = [] := rfl
@[simp] theorem unfinished_nil : unfinished d ([] : List α) = [] := rfl

/-! ## One more element -/

theorem segments_concat (stream : List α) (a : α) :
    segments d (stream ++ [a]) =
      if a = d then segments d stream ++ [unfinished d stream ++ [a]] else segments d stream := by
  simp only [segments, unfinished, List.foldl_append, List.foldl_cons, List.foldl_nil, push]
  split <;> rfl

theorem unfinished_concat (stream : List α) (a : α) :
    unfinished d (stream ++ [a]) = if a = d then [] else unfinished d stream ++ [a] := by
  simp only [unfinished, List.foldl_append, List.foldl_cons, List.foldl_nil, push]
  split <;> rfl

/-! ## The cut -/

/-- There is no flag in the unfinished segment. -/
theorem not_mem_unfinished (stream : List α) : d ∉ unfinished d stream := by
  induction stream using List.reverseRecOn with
  | nil => exact List.not_mem_nil
  | append_singleton stream a ih =>
    rw [unfinished_concat]
    by_cases ha : a = d
    · rw [if_pos ha]
      exact List.not_mem_nil
    · rw [if_neg ha, List.mem_append, List.mem_singleton, not_or]
      exact ⟨ih, Ne.symm ha⟩

/-- A segment ends at its first flag. -/
theorem mem_segments {stream seg : List α} (h : seg ∈ segments d stream) :
    ∃ body, d ∉ body ∧ seg = body ++ [d] := by
  induction stream using List.reverseRecOn with
  | nil => exact absurd h List.not_mem_nil
  | append_singleton stream a ih =>
    rw [segments_concat] at h
    by_cases ha : a = d
    · rw [if_pos ha, List.mem_append, List.mem_singleton] at h
      rcases h with h | rfl
      · exact ih h
      · subst ha
        exact ⟨unfinished a stream, not_mem_unfinished stream, rfl⟩
    · rw [if_neg ha] at h
      exact ih h

/-- Nothing of the stream gets lost. -/
theorem segments_flatten (stream : List α) :
    (segments d stream).flatten ++ unfinished d stream = stream := by
  induction stream using List.reverseRecOn with
  | nil => rfl
  | append_singleton stream a ih =>
    rw [segments_concat, unfinished_concat]
    by_cases ha : a = d
    · rw [if_pos ha, if_pos ha, List.flatten_append, List.flatten_singleton, List.append_nil,
        ← List.append_assoc, ih]
    · rw [if_neg ha, if_neg ha, ← List.append_assoc, ih]

/-- More elements leave the segments as they are. -/
theorem segments_mono (stream more : List α) :
    ∃ later, segments d (stream ++ more) = segments d stream ++ later := by
  induction more using List.reverseRecOn with
  | nil => exact ⟨[], by rw [List.append_nil, List.append_nil]⟩
  | append_singleton more a ih =>
    obtain ⟨later, hlater⟩ := ih
    rw [← List.append_assoc, segments_concat]
    by_cases ha : a = d
    · rw [if_pos ha, hlater, List.append_assoc]
      exact ⟨_, rfl⟩
    · rw [if_neg ha]
      exact ⟨later, hlater⟩

/-! ## Streams in pieces -/

/-- Elements without a flag only make the unfinished segment longer. -/
theorem segments_append_body (stream : List α) {body : List α} (h : d ∉ body) :
    segments d (stream ++ body) = segments d stream ∧
      unfinished d (stream ++ body) = unfinished d stream ++ body := by
  induction body using List.reverseRecOn with
  | nil => simp
  | append_singleton body a ih =>
    rw [List.mem_append, List.mem_singleton, not_or] at h
    obtain ⟨hsegs, hrest⟩ := ih h.1
    rw [← List.append_assoc, segments_concat, unfinished_concat, if_neg (Ne.symm h.2),
      if_neg (Ne.symm h.2), hsegs, hrest, List.append_assoc]
    exact ⟨rfl, rfl⟩

/-- Behind a stream with nothing unfinished the cut starts anew. -/
theorem segments_append_of_finished {stream : List α} (h : unfinished d stream = [])
    (more : List α) :
    segments d (stream ++ more) = segments d stream ++ segments d more ∧
      unfinished d (stream ++ more) = unfinished d more := by
  induction more using List.reverseRecOn with
  | nil => simp [h]
  | append_singleton more a ih =>
    obtain ⟨hsegs, hrest⟩ := ih
    rw [← List.append_assoc, segments_concat, unfinished_concat, segments_concat,
      unfinished_concat, hsegs, hrest]
    by_cases ha : a = d
    · rw [if_pos ha, if_pos ha, if_pos ha, List.append_assoc]
      exact ⟨rfl, rfl⟩
    · rw [if_neg ha, if_neg ha, if_neg ha]
      exact ⟨rfl, rfl⟩

/-- A segment that ends in the middle of the stream. -/
theorem segments_segment (stream : List α) {body : List α} (h : d ∉ body) (more : List α) :
    segments d (stream ++ (body ++ [d]) ++ more)
      = segments d stream ++ [unfinished d stream ++ (body ++ [d])] ++ segments d more := by
  obtain ⟨hsegs, hrest⟩ := segments_append_body stream h
  have hend : unfinished d (stream ++ (body ++ [d])) = [] := by
    rw [← List.append_assoc, unfinished_concat, if_pos rfl]
  rw [(segments_append_of_finished hend more).1, ← List.append_assoc, segments_concat, if_pos rfl,
    hsegs, hrest, List.append_assoc (unfinished d stream)]

/-- Nothing is unfinished at the start of the stream and directly behind a flag. -/
theorem unfinished_eq_nil_iff (stream : List α) :
    unfinished d stream = [] ↔ stream = [] ∨ stream.getLast? = some d := by
  induction stream using List.reverseRecOn with
  | nil => simp
  | append_singleton stream a ih =>
    rw [unfinished_concat, List.getLast?_concat, Option.some_inj]
    by_cases ha : a = d
    · rw [if_pos ha]
      exact ⟨fun _ => Or.inr ha, fun _ => rfl⟩
    · rw [if_neg ha]
      simp [ha]

end Gateway.Lib.Framing
