import LogicCalculator.Json.Number

/-!
# Quoted strings in JSON text

Between the quotes a backslash begins an escape, control characters are
refused, and every other character stands for itself. An escape `\uXXXX` gives
a UTF-16 code unit; a leading surrogate must be followed by a trailing one, and
the two together give one character.
-/

namespace LogicCalculator.Json

def hexValue? (c : Char) : Option Nat :=
  if '0' ≤ c ∧ c ≤ '9' then some (c.toNat - '0'.toNat)
  else if 'a' ≤ c ∧ c ≤ 'f' then some (c.toNat - 'a'.toNat + 10)
  else if 'A' ≤ c ∧ c ≤ 'F' then some (c.toNat - 'A'.toNat + 10)
  else none

/-- Four hexadecimal digits. A text of fewer than four bytes has ended too
early, whatever those bytes are. -/
def readUnit : List Char → Except Fault (Nat × List Char)
  | a :: b :: c :: d :: rest =>
    match hexValue? a, hexValue? b, hexValue? c, hexValue? d with
    | some a, some b, some c, some d => .ok (((a * 16 + b) * 16 + c) * 16 + d, rest)
    | _, _, _, _ => .error .malformed
  | short => if (String.ofList short).utf8ByteSize < 4 then .error .endOfText else .error .malformed

def isLeadingSurrogate (n : Nat) : Bool := 0xd800 ≤ n && n ≤ 0xdbff

def isTrailingSurrogate (n : Nat) : Bool := 0xdc00 ≤ n && n ≤ 0xdfff

def joinSurrogates (leading trailing : Nat) : Char :=
  Char.ofNat (0x10000 + (leading - 0xd800) * 0x400 + (trailing - 0xdc00))

def readFollowing : List Char → Except Fault (Nat × List Char)
  | [] => .error .endOfText
  | c :: cs =>
    if c = '\\' then
      match cs with
      | [] => .error .endOfText
      | d :: rest => if d = 'u' then readUnit rest else .error .malformed
    else .error .malformed

/-- The rest of an escape behind `\u`: one code unit, or a surrogate pair. -/
def readCodePoint (cs : List Char) : Except Fault (Char × List Char) :=
  match readUnit cs with
  | .error fault => .error fault
  | .ok (unit, rest) =>
    if isTrailingSurrogate unit then .error .malformed
    else if isLeadingSurrogate unit then
      match readFollowing rest with
      | .error fault => .error fault
      | .ok (trailing, rest) =>
        if isTrailingSurrogate trailing then .ok (joinSurrogates unit trailing, rest)
        else .error .malformed
    else .ok (Char.ofNat unit, rest)

def letterEscape? (c : Char) : Option Char :=
  if c = '"' ∨ c = '\\' ∨ c = '/' then some c
  else if c = 'b' then some '\x08'
  else if c = 'f' then some '\x0c'
  else if c = 'n' then some '\n'
  else if c = 'r' then some '\r'
  else if c = 't' then some '\t'
  else none

def readEscape : List Char → Except Fault (Char × List Char)
  | [] => .error .endOfText
  | c :: rest =>
    if c = 'u' then readCodePoint rest
    else
      match letterEscape? c with
      | some d => .ok (d, rest)
      | none => .error .malformed

theorem length_readUnit {cs rest : List Char} {n : Nat} (h : readUnit cs = .ok (n, rest)) :
    rest.length ≤ cs.length := by
  unfold readUnit at h
  split at h
  · split at h
    · cases h
      simp only [List.length_cons]
      omega
    · cases h
  · split at h <;> cases h

theorem length_readFollowing {cs rest : List Char} {n : Nat}
    (h : readFollowing cs = .ok (n, rest)) : rest.length ≤ cs.length := by
  unfold readFollowing at h
  split at h
  · cases h
  · split at h
    · split at h
      · cases h
      · split at h
        · have := length_readUnit h
          simp only [List.length_cons]
          omega
        · cases h
    · cases h

theorem length_readCodePoint {cs rest : List Char} {c : Char}
    (h : readCodePoint cs = .ok (c, rest)) : rest.length ≤ cs.length := by
  unfold readCodePoint at h
  split at h
  · cases h
  · rename_i unit behind hu
    have hb := length_readUnit hu
    split at h
    · cases h
    · split at h
      · split at h
        · cases h
        · rename_i hf
          have hf' := length_readFollowing hf
          split at h
          · obtain ⟨-, rfl⟩ := Prod.mk.inj (Except.ok.inj h)
            omega
          · cases h
      · obtain ⟨-, rfl⟩ := Prod.mk.inj (Except.ok.inj h)
        exact hb

theorem length_readEscape_lt {cs rest : List Char} {c : Char}
    (h : readEscape cs = .ok (c, rest)) : rest.length < cs.length := by
  unfold readEscape at h
  split at h
  · cases h
  · simp only [List.length_cons]
    split at h
    · have := length_readCodePoint h
      omega
    · split at h
      · cases h
        omega
      · cases h

def readQuoted : List Char → Except Fault (List Char × List Char)
  | [] => .error .endOfText
  | c :: cs =>
    if c = '"' then .ok ([], cs)
    else if c = '\\' then
      match _h : readEscape cs with
      | .error fault => .error fault
      | .ok (d, rest) => (readQuoted rest).map fun (ds, rest) => (d :: ds, rest)
    else if c.toNat < 0x20 then .error .malformed
    else (readQuoted cs).map fun (ds, rest) => (c :: ds, rest)
termination_by cs => cs.length
decreasing_by
  · have := length_readEscape_lt _h
    simp only [List.length_cons]
    omega
  · simp

end LogicCalculator.Json
