/-!
# Faults

Every reader, writer and conversion of the library ends in a value or in a `Fault`, the cause of its
failure.  `Fault.message` is the one place where causes are worded; a cause without a wording of its
own is shown by its kind alone.
-/

namespace AdventureKit

/-- What was wanted when the data ended. -/
inductive Missing where
  /-- A plain byte of a record. -/
  | byte
  /-- A byte that decides what follows it. -/
  | code
  /-- A group of bytes that is only read whole. -/
  | group
  deriving DecidableEq, Repr

/-- The agreements between two parts of the data that are checked on the way. -/
inductive Agreement where
  /-- A chunk header announces at least its own length. -/
  | chunkHeader
  /-- A chunk ends where its header says. -/
  | chunkEnd
  /-- Chunks have the content that their headers announce. -/
  | contentLength
  /-- A match lies in the window. -/
  | matchPosition
  /-- Packed data unpacks to what was packed. -/
  | packedContent
  /-- An entry has the length that the index records. -/
  | entryLength
  /-- A new name is not yet taken. -/
  | freshName
  /-- A block has the length that it announces. -/
  | blockLength
  /-- The parts of a script file lie where its header says. -/
  | layout
  /-- A text written anew is a beginning of the text that was read. -/
  | textBody
  /-- Texts read back as they were saved. -/
  | savedTexts
  /-- The texts of a script occur in its file. -/
  | textPlace
  /-- A text has no pair of quotes. -/
  | quotes
  /-- A row of a table names its file. -/
  | fileName
  /-- A catalogue line is free of the filler. -/
  | filler
  /-- The lines of a language start at its place. -/
  | languagePlace
  /-- A pixel value fits in four bits. -/
  | pixelRange
  /-- A long run is not written in its short form. -/
  | runForm
  /-- A sprite has as many pixels as its frame. -/
  | pixelCount
  /-- A sprite is written in the one way that it would be packed. -/
  | canonical
  /-- A resource table is not empty. -/
  | resourceCount
  /-- Resources follow each other without gaps. -/
  | resourcePlace
  /-- A shared resource is not empty. -/
  | resourceSize
  /-- Resources end the file. -/
  | resourceEnd
  /-- The glyphs fit in the grid. -/
  | gridSize
  /-- A command block starts with a known tag. -/
  | blockTag
  deriving DecidableEq, Repr

/-- The causes of failure. -/
inductive Fault where
  /-- The data ended. -/
  | ended (wanted : Missing)
  /-- A loop went on up to its bound.  The bounds are chosen so that none does. -/
  | exhausted
  /-- The data ended inside a text that a zero byte closes. -/
  | notTerminated
  /-- A position before the start of the data. -/
  | beforeStart
  /-- A number that its field cannot hold. -/
  | tooWide
  /-- A number that its field of a table record cannot hold. -/
  | recordField
  /-- A number that is no byte. -/
  | notByte
  /-- A cell that a buffer does not have, or a part that a pattern does not. -/
  | outside
  /-- Bytes that their encoding does not define. -/
  | undecodable
  /-- A character that the encoding lacks. -/
  | unencodable
  /-- Two parts of the data do not agree. -/
  | disagreement (about : Agreement)
  /-- A text that is no date. -/
  | notDate
  /-- A name or pattern that cannot be used. -/
  | badName
  /-- A name of a file that is too long. -/
  | nameTooLong
  /-- A key without a value; `key` is its printed form. -/
  | unknownKey (key : String)
  /-- Nothing is left to take. -/
  | nothingLeft
  /-- No candidate is left. -/
  | noCandidate
  /-- A value that an earlier step would have given is not there. -/
  | notYetKnown
  /-- A file that does not exist. -/
  | noFile
  /-- A directory where a file is wanted. -/
  | directory
  /-- A file where a directory is wanted. -/
  | notDirectory
  /-- A file already stands where a directory is wanted. -/
  | fileExists
  /-- A closed source. -/
  | closed
  /-- A column that holds a list in place of a text. -/
  | surplusCells
  /-- A cell that is too long. -/
  | cellTooLong
  /-- A file that holds no picture. -/
  | notPicture
  /-- A picture or list of the wrong size. -/
  | wrongSize
  /-- A turn among no things. -/
  | noTurn
  /-- An option that is not there. -/
  | noOption
  /-- A number of parts that does not fit. -/
  | wrongCount
  /-- A value of the wrong kind. -/
  | wrongKind
  /-- An operation that is not there; `name` says which. -/
  | notThere (name : String)
  /-- A block that is longer than it announces. -/
  | blockOverrun (used announced : Nat)
  /-- A fault of the input that is told in full. -/
  | report (text : String)
  /-- Nothing more is typed. -/
  | noInput
  /-- The user stopped the program. -/
  | interrupted
  /-- The command line is refused with an exit code. -/
  | usage (code : Nat)
  deriving DecidableEq, Repr

/-- The wording of a fault, if it has one. -/
def Fault.message : Fault → Option String
  | .notTerminated => some "Expected null-termination but reached EOF"
  | .unknownKey key => some key
  | .notThere name => some name
  | .blockOverrun used announced =>
    some ("('Block size mismatch: \x7b\x7d != \x7b\x7d', " ++ toString used ++ ", "
      ++ toString announced ++ ")")
  | .report text => some text
  | .interrupted => some ""
  | .usage code => some (toString code)
  | _ => none

end AdventureKit
