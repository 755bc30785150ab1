import RelQuery.Text.CaseTable

/-!
# Case mapping

Full upper and lower case of a text. Every character is mapped on its own, with one exception: a capital sigma that
ends a word becomes a final sigma.
-/

namespace RelQuery.Text

/-- The mapping of one character: its expansion if it has one, else the shift of its run, else itself. -/
def mapChar (runs : List CaseRun) (expansions : List (Nat × List Nat)) (c : Char) : List Char :=
  match expansions.find? (·.1 == c.toNat) with
  | some (_, codes) => codes.map Char.ofNat
  | none =>
    match runs.find? (·.contains c.toNat) with
    | some run => [Char.ofNat (Int.toNat (c.toNat + run.shift))]
    | none => [c]

def inRanges (ranges : List (Nat × Nat)) (c : Char) : Bool :=
  ranges.any fun r => decide (r.1 ≤ c.toNat) && decide (c.toNat ≤ r.2)

def isCased (c : Char) : Bool :=
  inRanges casedRanges c

/-- Characters that casing looks through, such as marks and apostrophes. -/
def isCaseIgnorable (c : Char) : Bool :=
  inRanges caseIgnorableRanges c

def upper (s : String) : String :=
  String.ofList (s.toList.flatMap (mapChar upperRuns upperExpansions))

/-- Whether a cased letter follows, casing looking through what it ignores. -/
def casedFollows (cs : List Char) : Bool :=
  match cs.dropWhile isCaseIgnorable with
  | c :: _ => isCased c
  | [] => false

/-- The lower-case form of the rest of a text, given the characters before it, nearest first. -/
def lowerAfter : List Char → List Char → List Char
  | _, [] => []
  | before, c :: rest =>
    let mapped :=
      if c = 'Σ' then
        if casedFollows before && !casedFollows rest then ['ς'] else ['σ']
      else mapChar lowerRuns lowerExpansions c
    mapped ++ lowerAfter (c :: before) rest

def lower (s : String) : String :=
  String.ofList (lowerAfter [] s.toList)

end RelQuery.Text
