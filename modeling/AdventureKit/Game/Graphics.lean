import AdventureKit.Game.Texts
import AdventureKit.Picture.Palette
import AdventureKit.Picture.Sprite
import AdventureKit.Resource.Item

/-!
# Editing sprites

The resources of a script lie in the script file, in a file of resources that goes with it, or in files
that all scripts share.  Their pictures are written one by one; a resource that is a palette counts for
the pictures after it.

Edited pictures are taken back into the files of the script.  A resource without a picture, or with one
that was not changed, keeps its bytes; shared resources are not edited.
-/

namespace AdventureKit.Game

/-- The folder of pictures. -/
def graphicsFolder : String := "graphics"

/-- Where resources are: in the script file or in a file that goes with it. -/
inductive Home where
  | script
  | beside
  deriving DecidableEq, Repr

/-- The suffix of the file of resources. -/
def Home.suffix : Home → String
  | .script => "TOT"
  | .beside => "EXT"

/-- The resources of a script by their home, and the numbers of the shared files. -/
structure Belongings where
  homes : Table Home Bytes
  /-- The resources that were found last. -/
  last : Bytes
  imNumber : Nat
  exNumber : Nat
  deriving DecidableEq, Repr

/-- The resources of a script. -/
def belongings (game : Game) (e : Entry) : Work Belongings := do
  let file ← scriptFile e
  let own := file.resources.getD []
  let homes : Table Home Bytes := if own.isEmpty then [] else [(.script, own)]
  let beside ← Work.ofExcept (e.nameWithSuffix ("." ++ Home.beside.suffix))
  game.each [beside] (fun (b : Belongings) _ e => do
    let data ← e.read
    return { b with homes := b.homes.put .beside data, last := data })
    ⟨homes, own, file.imNumber, file.exNumber⟩

/-- The file of a picture. -/
def pictureFile (e : Entry) (home : Home) (index : Nat) : String :=
  graphicsFolder ++ "/" ++ e.stem ++ "." ++ home.suffix ++ "_" ++ toString index ++ ".png"

/-- What the pictures so far decide for the ones that follow. -/
structure Drawing where
  palette : Bytes
  /-- The last picture. -/
  picture : Option Picture
  imNumber : Nat
  /-- Where in the resources the next one starts. -/
  cursor : Cursor

/-- The shared files. -/
structure SharedFiles where
  ex : Table String Bytes
  im : Table String Bytes

/-- The content of a shared file. -/
def sharedFile (files : Table String Bytes) (name : String) : Except Fault Bytes :=
  match files.get? name with
  | some file => .ok file
  | none => .error (.unknownKey (Quoted.string name))

/-- The content of a resource in a shared file of pictures, which starts with the places of its
resources. -/
def sharedImContent (file : Bytes) (item : Resource.Item) : Bytes :=
  let place := Bytes.toNatLE ((file.drop (item.sharedPlace * 4)).take 4)
  (file.drop place).take item.size

/-- The content of a shared resource, if it is there. -/
def sharedContent (shared : SharedFiles) (exNumber : Nat) (home : Home) (d : Drawing)
    (item : Resource.Item) : Work (Option Bytes × Drawing) := do
  Work.say "NEGATIVE OFFSET"
  match home with
  | .script =>
    Work.say "IM RESOURCE"
    let number := if d.imNumber = 0 then 1 else d.imNumber
    if item.size = 0 then throw (.disagreement .resourceSize)
    let file ← Work.ofExcept (sharedFile shared.im ("COMMUN.IM" ++ toString number))
    return (some (sharedImContent file item), { d with imNumber := number })
  | .beside =>
    Work.say "EX RESOURCE"
    let file ← Work.ofExcept (sharedFile shared.ex ("COMMUN.EX" ++ toString exNumber))
    if item.size = 0 then throw (.disagreement .resourceSize)
    let content ← Work.ofExcept (Resource.contentAt file item.sharedPlace item)
    if !item.packed ∧ content.length ≠ item.size then
      Work.say "WARNING: Reading EX out of bounds"
      return (none, d)
    return (some content, d)

/-- The content of a resource that lies where the one before it ended, if it can be read there. -/
def inlineContent (home : Home) (tableSize : Nat) (d : Drawing) (item : Resource.Item) :
    Work (Option Bytes × Drawing) := do
  Work.say ("INLINE " ++ home.suffix ++ " RESOURCE")
  if (d.cursor.pos : Int) ≠ item.offset + tableSize then throw (.disagreement .resourcePlace)
  if item.packed then
    if home = .script then return (none, d)
    let (content, rest) ← Work.ofExcept (Lzss.unpackSized d.cursor.rest)
    return (some content, { d with cursor.pos := d.cursor.data.size - rest.length })
  else
    let (content, cursor) := d.cursor.read item.size
    return (some content, { d with cursor := cursor })

/-- Writes the picture of a resource. -/
def writePicture (e : Entry) (home : Home) (index : Nat) (item : Resource.Item) (content : Bytes)
    (d : Drawing) : Work Drawing := do
  Work.say (String.intercalate " " ("COMPRESSION" :: (content.take 3).map fun b => toString b.toNat))
  let subject := e.name ++ " " ++ toString index
  Work.say ((if Sprite.isPacked content then "UNCOMPRESS " else "UNPACK ") ++ subject)
  let px ← Work.ofLogged (Sprite.decode content item.width item.height)
  let file := pictureFile e home index
  if item.width ≠ 0 ∧ item.height ≠ 0 then
    let picture := Picture.ofPixels item.width item.height px
    Work.write file (.picture picture d.palette)
    Work.say file
    return { d with picture := some picture }
  else if content.length = 768 then
    Work.say ("PALETTE " ++ subject)
    let palette := Palette.widen content
    if let some picture := d.picture then
      Work.write file (.picture picture palette)
    return { d with palette := palette }
  else
    Work.say (toString content.length ++ " " ++ toString px.length)
    return d

/-- Writes the pictures of the resources of one home. -/
def writePictures (e : Entry) (shared : SharedFiles) (exNumber : Nat) (d : Drawing) (home : Home)
    (resources : Bytes) : Work Drawing := do
  let (items, cursor) := Resource.readTable (Cursor.ofBytes resources)
  let items ← Work.ofExcept items
  let tableSize := cursor.pos
  (items.mapIdx fun index item => (index, item)).foldlM (fun d (index, item) => do
    let (content, d) ←
      if item.offset < 0 then sharedContent shared exNumber home d item
      else inlineContent home tableSize d item
    match content with
    | none => return d
    | some content => writePicture e home index item content d) { d with cursor := cursor }

/-- Writes the pictures of a script. -/
def extractSprites (game : Game) (e : Entry) : Work Unit := do
  let b ← game.belongings e
  let ex ← game.contents "COMMUN.EX*"
  let im ← game.contents "COMMUN.IM*"
  let _ ← b.homes.foldlM (fun d (home, resources) =>
    writePictures e ⟨ex, im⟩ b.exNumber d home resources)
    (⟨Palette.sprites, none, b.imNumber, Cursor.ofBytes []⟩ : Drawing)

/-- A file of resources under way: its table, its contents, and where the next resource starts. -/
structure Refit where
  table : Bytes
  contents : Bytes
  cursor : Cursor

/-- Adds a resource with its record. -/
def Refit.add (r : Refit) (item : Resource.Item) (content : Bytes) : Except Fault Refit := do
  let record ← ({ item with offset := r.contents.length, size := content.length }).bytes
  return { r with table := r.table ++ record, contents := r.contents ++ content }

/-- The content of a sprite with edited pixels, in the form of the old one. -/
def editedSprite (old px : Bytes) (item : Resource.Item) : Logged Bytes := do
  let was ← Sprite.decode old item.width item.height
  if was == px then return old
  let wanted := item.width * item.height
  if px.length ≠ wanted then
    throw (.report ("(" ++ toString px.length ++ ", " ++ toString wanted ++ ")"))
  Logged.ofExcept (if Sprite.isPacked old then Sprite.pack px else Sprite.packPixels px)

/-- Takes one resource over, with its picture if there is one. -/
def refitItem (e : Entry) (home : Home) (tableSize : Nat) (r : Refit) (index : Nat)
    (item : Resource.Item) : Work Refit := do
  if item.offset < 0 then
    return { r with table := r.table ++ (← Work.ofExcept item.bytes) }
  if (r.cursor.pos : Int) ≠ item.offset + tableSize then throw (.disagreement .resourcePlace)
  if item.packed ∧ home = .script then return r
  let content ←
    if item.packed then Prod.fst <$> Work.ofExcept (Lzss.unpackSized r.cursor.rest)
    else pure (r.cursor.read item.size).1
  let (stored, cursor) := r.cursor.read item.size
  let r := { r with cursor := cursor }
  let file := pictureFile e home index
  if (← Work.has file) ∧ item.width ≠ 0 ∧ item.height ≠ 0 then
    let px := (← Work.readPicture file).pixels
    let content ← Work.ofLogged (editedSprite content px item)
    let content ← if item.packed then Work.ofExcept (Lzss.pack content) else pure content
    Work.ofExcept (r.add item content)
  else Work.ofExcept (r.add item stored)

/-- The file of one home with the pictures of its resources. -/
def refit (e : Entry) (home : Home) (resources : Bytes) : Work Bytes := do
  let start : Bytes ← match home with
    | .beside => pure []
    | .script => do
      let file ← e.read
      let start := Sequence.replaceAll resources [] file
      if start ++ resources = file then pure start else throw (.disagreement .resourceEnd)
  let (items, cursor) := Resource.readTable (Cursor.ofBytes resources)
  let items ← Work.ofExcept items
  let r ← (items.mapIdx fun index item => (index, item)).foldlM (fun r (index, item) =>
    refitItem e home cursor.pos r index item) (⟨start ++ resources.take 3, [], cursor⟩ : Refit)
  return r.table ++ r.contents

/-- Takes the pictures of a script back. -/
def injectSprites (game : Game) (patching : Patching) (e : Entry) : Work Patching := do
  let b ← game.belongings e
  if b.last.isEmpty then return patching
  b.homes.foldlM (fun patching (home, resources) => do
    let file ← refit e home resources
    Work.ofExcept (patching.add (e.stem ++ "." ++ home.suffix) file)) patching

/-- The tool for sprites. -/
def graphics (base : String) (rebuild : Bool) : Work Unit := do
  Work.makeFolders graphicsFolder
  let game : Game := { base }
  if rebuild then
    let patching ← game.each [scriptPattern] (fun patching _ e => game.injectSprites patching e) {}
    game.rebuild patching outputFolder
  else game.each [scriptPattern] (fun _ _ e => game.extractSprites e) ()

end AdventureKit.Game
