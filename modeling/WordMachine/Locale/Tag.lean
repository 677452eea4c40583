import WordMachine.Locale
import WordMachine.Locale.Registry

/-!
# `Locale.Tag` — language tags

A tag is a sequence of subtags: a language, then a script, a region, variants and extensions, each of
which may be missing. A tag that breaks this form is malformed; one that keeps it may still have a
subtag that nobody has registered.

Contents: `TagError`, `Reading`, `Reading.tag`, `Reading.extensions`, `Locale.ofTag`.
-/

namespace WordMachine

/-- Why a language tag is refused. -/
inductive TagError where
  | malformed
  | unknown (subtag : Bytes)
  /-- A key of the locale extension has two values. -/
  | conflict
  deriving DecidableEq, Repr

/-- The wording of a refused tag. -/
def TagError.message : TagError → Bytes
  | .malformed => bytes "language: tag is not well-formed"
  | .unknown subtag =>
      bytes "language: subtag \"" ++ subtag ++ bytes "\" is well-formed but unknown"
  | .conflict => bytes "language: different values for same key in -u extension"

namespace Locale

/-! ## Subtags -/

/-- Lower case of the Latin letters. -/
def lower (text : Bytes) : Bytes := text.map fun c => if 0x41 ≤ c && c ≤ 0x5a then c + 32 else c

/-- Whether a subtag starts with a letter. -/
def startsWithLetter (subtag : Bytes) : Bool := subtag.head?.any Ascii.isLetter

/-- Whether the second byte of a subtag is a letter. -/
def secondIsLetter (subtag : Bytes) : Bool := (subtag.drop 1).head?.any Ascii.isLetter

/-- What is wrong with a subtag that has to be one of a list, in the spelling of that list. -/
def fault (list : List Bytes) (subtag : Bytes) : List TagError :=
  if !subtag.all Ascii.isLetter then [.malformed]
  else if list.contains subtag then []
  else [.unknown subtag]

/-- Whether three lower-case letters are a language. -/
def isThreeLetterLanguage : Bytes → Bool
  | [a, b, c] =>
      let place (x : UInt8) : Nat := x.toNat - 0x61
      (Registry.threeLetterLanguages[place a * 26 + place b]?.getD 0).testBit (place c)
  | _ => false

/-- What is wrong with a language. -/
def languageFault (subtag : Bytes) : List TagError :=
  let name := lower subtag
  if name.length = 2 then fault Registry.twoLetterLanguages name
  else if !name.all Ascii.isLetter then [.malformed]
  else if isThreeLetterLanguage name then []
  else [.unknown name]

/-- What is wrong with a script: its first letter is written in upper case. -/
def scriptFault (subtag : Bytes) : List TagError :=
  fault Registry.scripts (Numeral.upper (subtag.take 1) ++ lower (subtag.drop 1))

/-- What is wrong with a region: two or three letters, or three digits. -/
def regionFault (subtag : Bytes) : List TagError :=
  let name := Numeral.upper subtag
  if name.length = 3 ∧ !startsWithLetter name then
    match Numeral.ofDigits? 10 name with
    | some n => if Registry.regionNumbers.contains n then [] else [.unknown []]
    | none => [.malformed]
  else fault (if name.length = 2 then Registry.regions else Registry.threeLetterRegions) name

/-- What is wrong with a variant. -/
def variantFault (subtag : Bytes) : List TagError :=
  let name := lower subtag
  if Registry.variants.contains name then [] else [.unknown name]

/-! ## Tags -/

/-- The reading of a tag so far: the language, what is wrong, and the subtags left. -/
structure Reading where
  language : Bytes := []
  faults : List TagError := []
  rest : List Bytes
  deriving DecidableEq, Repr

namespace Reading

/-- Note what is wrong. -/
def note (r : Reading) (faults : List TagError) : Reading := { r with faults := r.faults ++ faults }

/-- Take the first subtag if a test holds for it, and note what is wrong with it. -/
def optional (r : Reading) (test : Bytes → Bool) (check : Bytes → List TagError) : Reading :=
  match r.rest with
  | s :: rest => if test s then { r with rest := rest }.note (check s) else r
  | [] => r

/-- Take the subtags in front for which a test holds, and note what is wrong with them. -/
def many (r : Reading) (test : Bytes → Bool) (check : Bytes → List TagError) : Reading :=
  { r with rest := r.rest.dropWhile test }.note ((r.rest.takeWhile test).flatMap check)

/-- Read a language with what extends it. An extension that is known itself takes the place of the
language, if that is asked for. -/
def primary (r : Reading) (replace : Bool) : Reading :=
  match r.rest with
  | [] => r
  | s :: rest =>
      let isExtension (s : Bytes) : Bool := s.length == 3 && startsWithLetter s
      let r := { r with language := lower s, rest := rest }.note (languageFault s)
      if replace then
        let known := (rest.takeWhile isExtension).filter fun s => (languageFault s).isEmpty
        { r with language := (known.getLast?.map lower).getD r.language }.many isExtension languageFault
      else r.many isExtension fun _ => []

/-- Read a language, a script, a region and variants. -/
def tag (r : Reading) (replace : Bool) : Reading :=
  (((r.primary replace).optional (fun s => s.length == 4 && startsWithLetter s) scriptFault).optional
    (fun s => s.length == 2 || s.length == 3) regionFault).many (fun s => 4 ≤ s.length) variantFault

/-! ## Extensions -/

/-- The keys in front, each with its values. The fuel bounds their number. -/
def keysFrom : Nat → List Bytes → List (Bytes × List Bytes)
  | 0, _ => []
  | _, [] => []
  | fuel + 1, k :: rest =>
      if k.length = 2 then
        (lower k, (rest.takeWhile fun s => 2 < s.length).map lower)
          :: keysFrom fuel (rest.dropWhile fun s => 2 < s.length)
      else []

/-- Whether a key has different values. -/
def hasConflict (keys : List (Bytes × List Bytes)) : Bool :=
  keys.any fun k => keys.any fun l => k.1 == l.1 && k.2 != l.2

/-- Read the locale extension after its letter: attributes, then keys with values. -/
def localeExtension (r : Reading) : Reading :=
  let keys := r.rest.dropWhile fun s => 2 < s.length
  let conflict := hasConflict (keysFrom keys.length keys)
  { r with rest := r.rest.dropWhile fun s => 1 < s.length }.note
    (if conflict then [.conflict] else [])

/-- Drop fields in front: a letter and a digit, then subtags of at least three bytes. The fuel bounds
their number. -/
def dropFields : Nat → List Bytes → List Bytes
  | 0, rest => rest
  | _, [] => []
  | fuel + 1, s :: rest =>
      if s.length = 2 ∧ !secondIsLetter s then
        dropFields fuel (rest.dropWhile fun s => 3 ≤ s.length)
      else s :: rest

/-- Read the extension of a transformed content after its letter: a tag, then fields. -/
def transformExtension (r : Reading) : Reading :=
  let inner := match r.rest with
    | s :: _ => if (s.length == 2 || s.length == 3) && secondIsLetter s then r.tag false else r
    | [] => r
  { inner with language := r.language, rest := dropFields inner.rest.length inner.rest }

/-- Read extensions, each with its letter and something after it. All that follows an `x` belongs to
it. The fuel bounds their number. -/
def extensions : Nat → Reading → Reading
  | 0, r => r
  | fuel + 1, r =>
      match r.rest with
      | s :: rest =>
          if s.length ≠ 1 then r
          else
            let r := { r with rest := rest }
            let after :=
              if lower s = bytes "x" then { r with rest := [] }
              else if lower s = bytes "u" then r.localeExtension
              else if lower s = bytes "t" then r.transformExtension
              else { r with rest := rest.dropWhile fun s => 2 ≤ s.length }
            let after := if after.rest.length = rest.length then after.note [.malformed] else after
            after.extensions fuel
      | [] => r

/-- The result of a reading: a malformed tag is refused for that, any other for the first fault. -/
def result (r : Reading) : Except TagError Bytes :=
  if r.faults.contains .malformed then .error .malformed
  else
    match r.faults with
    | fault :: _ => .error fault
    | [] => .ok r.language

end Reading

/-! ## Formats -/

/-- Whether a subtag has one to eight letters and digits. -/
def isSubtag (subtag : Bytes) : Bool :=
  1 ≤ subtag.length && subtag.length ≤ 8 && subtag.all fun c => Ascii.isDigit c || Ascii.isLetter c

/-- The language of a tag. -/
def languageOf (tag : Bytes) : Except TagError Bytes :=
  let tag := tag.map fun c => if c = Ascii.underscore then Ascii.minus else c
  let subtags := tag.splitOn Ascii.minus
  if Registry.irregular.contains (lower tag) then .ok (lower (subtags.head?.getD []))
  else if !subtags.all isSubtag then .error .malformed
  else
    match subtags with
    | [] => .error .malformed
    | first :: rest =>
        let all : Reading := { rest := subtags }
        if first.length = 1 then
          if lower first = bytes "x" then (all.extensions subtags.length).result else .error .malformed
        else if 4 ≤ first.length then .error .malformed
        else
          let r := all.tag true
          match r.rest with
          | [] => r.result
          | s :: _ => if s.length = 1 then (r.extensions rest.length).result else .error .malformed

/-- The languages that have a format of their own. -/
def formats : List (Bytes × Locale) :=
  [(bytes "de", german), (bytes "deu", german), (bytes "fr", french), (bytes "fra", french)]

/-- The number format for a tag. -/
def ofTag (tag : Bytes) : Except TagError Locale :=
  match languageOf tag with
  | .error e => .error e
  | .ok language => .ok ((formats.lookup language).getD english)

end Locale

end WordMachine
