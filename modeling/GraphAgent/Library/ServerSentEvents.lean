import Mathlib.Data.List.Basic

/-!
# Server-sent events

How a client reads an event stream: in lines, which end with a line feed, a carriage return or
both, and in events, which end with an empty line. Texts that are sent as the data of one line
each are read as they are.
-/

namespace ServerSentEvents

section Reading

/-- The lines of a stream, given what is read of the first. An unfinished line is none. -/
def lines (current : List Char) : List Char → List (List Char)
  | [] => []
  | '\r' :: '\n' :: rest => current :: lines [] rest
  | c :: rest =>
      if c = '\r' ∨ c = '\n' then current :: lines [] rest else lines (current ++ [c]) rest

/-- The name and the value of a field, where the line is not a comment. -/
def field? (line : List Char) : Option (List Char × List Char) :=
  let name := line.takeWhile fun c => c ≠ ':'
  let value := (line.dropWhile fun c => c ≠ ':').tail
  if line.head? = some ':' then none
  else some (name, if value.head? = some ' ' then value.tail else value)

/-- A reader with the lines of data of the event it reads, and the data of the events so far. -/
structure Reader where
  data : List (List Char)
  events : List (List Char)

/-- `data` -/
def dataName : List Char := ['d', 'a', 't', 'a']

/-- A line is read: an empty one ends the event, unless the event has got no data. -/
def Reader.read (r : Reader) (line : List Char) : Reader :=
  if line = [] then
    if r.data = [] then r else ⟨[], r.events ++ [['\n'].intercalate r.data]⟩
  else
    match field? line with
    | some (name, value) =>
        if name = dataName then { r with data := r.data ++ [value] } else r
    | none => r

/-- The data of the events of a stream. -/
def events (stream : List Char) : List (List Char) :=
  ((lines [] stream).foldl Reader.read ⟨[], []⟩).events

/-- One event with its data in one line. -/
def frame (data : List Char) : List Char := dataName ++ ':' :: ' ' :: (data ++ ['\n', '\n'])

end Reading

section Frames

variable {text rest data : List Char}

/-- No line ends in the text. -/
def OneLine (text : List Char) : Prop := ∀ c ∈ text, c ≠ '\r' ∧ c ≠ '\n'

/-- A line that ends with a line feed. -/
theorem lines_append (h : OneLine text) (current : List Char) :
    lines current (text ++ '\n' :: rest) = (current ++ text) :: lines [] rest := by
  induction text generalizing current with
  | nil =>
      rw [List.append_nil, List.nil_append, lines]
      · exact if_pos (.inr rfl)
      · intro _ hcr
        cases hcr
  | cons c text ih =>
      have hc := h c List.mem_cons_self
      have hother : ¬ (c = '\r' ∨ c = '\n') := fun hend => hend.elim hc.1 hc.2
      have hstep : lines current (c :: (text ++ '\n' :: rest)) =
          lines (current ++ [c]) (text ++ '\n' :: rest) := by
        rw [lines]
        · exact if_neg hother
        · intro rest' hcr
          exact absurd hcr hc.1
      rw [List.cons_append, hstep, ih fun d hd => h d (List.mem_cons_of_mem c hd), List.append_assoc,
        List.singleton_append]

theorem read_data (r : Reader) :
    r.read (dataName ++ ':' :: ' ' :: data) = { r with data := r.data ++ [data] } := by
  have hfield : field? (dataName ++ ':' :: ' ' :: data) = some (dataName, data) := rfl
  unfold Reader.read
  rw [if_neg (by simp), hfield]
  exact if_pos rfl

/-- Data that is sent in one line each is read as it is. -/
theorem events_frames (sent : List (List Char)) (h : ∀ data ∈ sent, OneLine data) :
    events (sent.flatMap frame) = sent := by
  have hread : ∀ done, (lines [] (sent.flatMap frame)).foldl Reader.read ⟨[], done⟩ =
      ⟨[], done ++ sent⟩ := by
    induction sent with
    | nil =>
        intro done
        rw [List.append_nil]
        rfl
    | cons data sent ih =>
        intro done
        have hline : OneLine (dataName ++ ':' :: ' ' :: data) := by
          intro c hc
          rw [List.append_cons, List.append_cons] at hc
          rcases List.mem_append.1 hc with hname | hdata
          · have hnone : (dataName ++ [':'] ++ [' ']).any (fun c => c = '\r' ∨ c = '\n') = false :=
              rfl
            exact not_or.1 fun hend => List.any_eq_false.1 hnone c hname (decide_eq_true hend)
          · exact h data List.mem_cons_self c hdata
        have hframe : (data :: sent).flatMap frame =
            (dataName ++ ':' :: ' ' :: data) ++ '\n' :: ([] ++ '\n' :: sent.flatMap frame) := by
          rw [List.flatMap_cons, frame]
          simp
        have hempty : OneLine [] := fun c hc => absurd hc List.not_mem_nil
        rw [hframe, lines_append hline, lines_append hempty, List.foldl_cons, List.foldl_cons,
          List.nil_append, read_data, List.nil_append]
        have hdispatch : (⟨[data], done⟩ : Reader).read [] = ⟨[], done ++ [data]⟩ := by
          unfold Reader.read
          rw [if_pos rfl, if_neg (by simp), List.intercalate_singleton]
        change (lines [] (sent.flatMap frame)).foldl Reader.read
          ((⟨[data], done⟩ : Reader).read []) = _
        rw [hdispatch, ih fun other hother => h other (List.mem_cons_of_mem data hother),
          List.append_assoc, List.singleton_append]
  exact congrArg Reader.events (hread [])

end Frames

end ServerSentEvents
