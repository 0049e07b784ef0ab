import AdventureKit.Script.Expression

/-!
# Instruction sets

An instruction either shows itself with its arguments, or steers the flow, or is one of a few with a
form of their own.  Later versions of the instruction set change some entries of earlier ones.
-/

namespace AdventureKit.Script

/-- An argument. -/
inductive Param where
  | word
  | byte
  | expr
  | var
  | totSub
  | poppedVars
  deriving DecidableEq, Repr

/-- How the arguments of an instruction are read. -/
inductive Arguments where
  /-- One after the other. -/
  | each (params : List Param)
  | mult
  | playedMult
  | animation
  | multObject
  | staticLayer
  | pushedVars
  | mapObjects
  | music
  | goblins
  | repeated
  deriving DecidableEq, Repr

/-- What is shown as a title and arguments. -/
structure Operation where
  title : String
  arguments : Arguments
  deriving DecidableEq, Repr

/-- An instruction. -/
inductive Instruction where
  /-- Shows itself. -/
  | display (operation : Operation)
  /-- Is known by name only. -/
  | unsupported (name : String)
  | call
  | showText
  | textPart
  | choose
  | repeatUntil
  | whileDo
  | ifElse
  | assign
  | assignMany
  | loadSprite
  | printText
  | printTextParts
  | loadScript
  | loadPalette
  | draw
  | setCommandCount
  | goblin
  | goblinCommand
  | geisha
  | loadSound
  | loadSoundFile
  | textLength
  deriving DecidableEq, Repr

/-- The operations on the screen. -/
def drawOperations : List (Nat × Operation) := [
  (0x00, ⟨"(D) o2_loadMult", .mult⟩),
  (0x01, ⟨"(D) o2_playMult", .playedMult⟩),
  (0x02, ⟨"(D) o2_freeMultKeys", .each [.word]⟩),
  (0x07, ⟨"(D) o1_initCursor", .each [.var, .var, .word, .word, .word]⟩),
  (0x08, ⟨"(D) o1_initCursorAnim", .each [.expr, .word, .word, .word]⟩),
  (0x09, ⟨"(D) o1_clearCursorAnim", .each [.expr]⟩),
  (0x0A, ⟨"(D) o2_setRenderFlags", .each [.expr]⟩),
  (0x10, ⟨"(D) o1_loadAnim", .animation⟩),
  (0x11, ⟨"(D) o1_freeAnim", .each [.expr]⟩),
  (0x12, ⟨"(D) o1_updateAnim", .each [.expr, .expr, .expr, .expr, .expr, .word]⟩),
  (0x13, ⟨"(D) o2_multSub", .each [.expr, .expr, .expr, .expr, .expr]⟩),
  (0x14, ⟨"(D) o2_initMult", .each [.word, .word, .word, .word, .word, .var, .var, .var]⟩),
  (0x15, ⟨"(D) o1_freeMult", .each []⟩),
  (0x16, ⟨"(D) o1_animate", .each []⟩),
  (0x17, ⟨"(D) o2_loadMultObject", .multObject⟩),
  (0x18, ⟨"(D) o1_getAnimLayerInfo", .each [.expr, .expr, .var, .var, .var, .var]⟩),
  (0x19, ⟨"(D) o1_getObjAnimSize", .each [.expr, .var, .var, .var, .var]⟩),
  (0x1A, ⟨"(D) o1_loadStatic", .staticLayer⟩),
  (0x1B, ⟨"(D) o1_freeStatic", .each [.expr]⟩),
  (0x1C, ⟨"(D) o2_renderStatic", .each [.expr, .expr]⟩),
  (0x1D, ⟨"(D) o2_loadCurLayer", .each [.expr, .expr]⟩),
  (0x20, ⟨"(D) o2_playCDTrack", .each [.expr]⟩),
  (0x22, ⟨"(D) o2_stopCD", .each []⟩),
  (0x23, ⟨"(D) o2_readLIC", .each [.expr]⟩),
  (0x24, ⟨"(D) o2_freeLIC", .each []⟩),
  (0x25, ⟨"(D) o2_getCDTrackPos", .each [.var, .var]⟩),
  (0x30, ⟨"(D) o2_loadFontToSprite", .each [.word, .word, .word, .word, .word]⟩),
  (0x31, ⟨"(D) o1_freeFontToSprite", .each [.word]⟩),
  (0x40, ⟨"(D) o2_totSub", .each [.totSub]⟩),
  (0x41, ⟨"(D) o2_switchTotSub", .each [.word, .word]⟩),
  (0x42, ⟨"(D) o2_pushVars", .pushedVars⟩),
  (0x43, ⟨"(D) o2_popVars", .each [.poppedVars]⟩),
  (0x50, ⟨"(D) o2_loadMapObjects", .mapObjects⟩),
  (0x51, ⟨"(D) o2_freeGoblins", .each []⟩),
  (0x52, ⟨"(D) o2_moveGoblin", .each [.expr, .expr, .expr]⟩),
  (0x53, ⟨"(D) o2_writeGoblinPos", .each [.var, .var, .expr]⟩),
  (0x54, ⟨"(D) o2_stopGoblin", .each [.expr]⟩),
  (0x55, ⟨"(D) o2_setGoblinState", .each [.expr, .expr, .expr]⟩),
  (0x56, ⟨"(D) o2_placeGoblin", .each [.expr, .expr, .expr, .expr]⟩),
  (0x80, ⟨"(D) o2_initScreen", .each [.byte, .byte, .expr, .expr]⟩),
  (0x81, ⟨"(D) o2_scroll", .each [.expr, .expr, .expr, .expr, .expr, .expr]⟩),
  (0x82, ⟨"(D) o2_setScrollOffset", .each [.expr, .expr]⟩),
  (0x83, ⟨"(D) o2_playImd", .each [.expr, .expr, .expr, .expr, .expr, .expr, .expr, .expr,
    .expr]⟩),
  (0x84, ⟨"(D) o2_getImdInfo", .each [.expr, .var, .var, .var, .var, .var]⟩),
  (0x85, ⟨"(D) o2_openItk", .each [.expr]⟩),
  (0x86, ⟨"(D) o2_closeItk", .each []⟩)]

/-- The operations of goblins by their numbers. -/
def goblinOperations : List (Nat × Operation) := [
  (0, ⟨"(G) o2_loadInfogramesIns", .music⟩),
  (1, ⟨"(G) o2_startInfogrames", .each [.word]⟩),
  (2, ⟨"(G) o2_stopInfogrames", .each [.word]⟩),
  (9, ⟨"(G) o2_playInfogrames", .music⟩),
  (11, ⟨"(G) o_weenNOP_11", .each [.word]⟩),
  (15, ⟨"(G) o1_setRelaxTime", .each []⟩),
  (39, ⟨"(G) o2_handleGoblins", .goblins⟩),
  (71, ⟨"(G) o1_dummy", .repeated⟩),
  (3000, ⟨"(G) o_weenNOP_3000", .each []⟩)]

/-- The numbers of goblin operations by their commands. -/
def goblinNumbers : List (Nat × Nat) := [
  (0, 0), (1, 1), (2, 2), (4, 3), (5, 4), (6, 5), (7, 6), (8, 7),
  (9, 8), (10, 9), (12, 10), (13, 71), (14, 12), (16, 14), (21, 15), (22, 16),
  (23, 17), (24, 18), (25, 19), (26, 20), (27, 21), (28, 22), (29, 23), (30, 24),
  (32, 25), (33, 26), (34, 27), (35, 28), (36, 29), (37, 30), (40, 31), (41, 32),
  (42, 33), (43, 34), (44, 35), (50, 36), (52, 37), (53, 38), (100, 39), (152, 40),
  (200, 41), (201, 42), (202, 43), (203, 44), (204, 45), (250, 46), (251, 47), (252, 48),
  (500, 49), (502, 50), (503, 51), (600, 52), (601, 53), (602, 54), (603, 55), (604, 56),
  (605, 57), (1000, 58), (1001, 59), (1002, 60), (1003, 61), (1004, 62), (1005, 63), (1006, 64),
  (1008, 65), (1009, 66), (1010, 67), (1011, 68), (1015, 69), (2005, 70), (3, 71), (11, 11),
  (3000, 3000), (15, 15)]

/-- The goblin operations of the first instruction set by their commands. -/
def firstGoblinOperations : List (Nat × Operation) := [
  (1, ⟨"(G) o1_setState", .each []⟩),
  (2, ⟨"(G) o1_setCurFrame", .each []⟩),
  (4, ⟨"(G) o1_setMultState", .each []⟩),
  (5, ⟨"(G) o1_setOrder", .each []⟩),
  (8, ⟨"(G) o1_setType", .each []⟩),
  (9, ⟨"(G) o1_setNoTick", .each []⟩),
  (10, ⟨"(G) o1_setPickable", .each []⟩),
  (12, ⟨"(G) o1_setXPos", .each []⟩),
  (13, ⟨"(G) o1_setYPos", .each []⟩),
  (21, ⟨"(G) o1_getState", .each []⟩),
  (22, ⟨"(G) o1_getCurFrame", .each []⟩),
  (32, ⟨"(G) o1_getObjMaxFrame", .each []⟩),
  (40, ⟨"(G) o1_manipulateMap", .each [.word, .word, .word]⟩),
  (44, ⟨"(G) o1_setPassMap", .each [.word, .word, .word]⟩),
  (150, ⟨"(G) o1_setGoblinMultState", .each [.word, .word, .word]⟩),
  (152, ⟨"(G) o1_setGoblinUnk14", .each [.word, .word]⟩),
  (200, ⟨"(G) o1_setItemIdInPocket", .each [.word]⟩),
  (201, ⟨"(G) o1_setItemIndInPocket", .each [.word]⟩),
  (1000, ⟨"(G) o1_loadObjects", .each [.word]⟩),
  (1001, ⟨"(G) o1_freeObjects", .each []⟩),
  (1002, ⟨"(G) o1_animateObjects", .each []⟩),
  (1003, ⟨"(G) o1_drawObjects", .each []⟩),
  (1004, ⟨"(G) o1_loadMap", .each []⟩),
  (1005, ⟨"(G) o1_moveGoblin", .each [.word, .word]⟩),
  (1008, ⟨"(G) o1_loadGoblin", .each []⟩),
  (1009, ⟨"(G) o1_writeTreatItem", .each [.word, .word, .word]⟩),
  (1010, ⟨"(G) o1_moveGoblin0", .each []⟩),
  (1015, ⟨"(G) o1_setGoblinObjectsPos", .each [.word, .word]⟩),
  (2005, ⟨"(G) o1_initGoblin", .each []⟩)]

/-- The operations that take the place of goblin operations in version 48. -/
def geishaOperations : List (Nat × Operation) := [
  (0, ⟨"(G) oGeisha_gamePenetration", .each [.word, .word, .word, .word]⟩),
  (1, ⟨"(G) oGeisha_gameDiving", .each [.word, .word, .word]⟩),
  (2, ⟨"(G) oGeisha_loadTitleMusic", .each []⟩),
  (3, ⟨"(G) oGeisha_playMusic", .each []⟩),
  (4, ⟨"(G) oGeisha_stopMusic", .each []⟩),
  (6, ⟨"(G) oGeisha_caress1", .each []⟩),
  (7, ⟨"(G) oGeisha_caress2", .each []⟩)]

/-- The instructions of version 49. -/
def instructions49 : List (Nat × Instruction) := [
  (0x00, .call),
  (0x01, .call),
  (0x02, .showText),
  (0x03, .display ⟨"o1_loadCursor", .each [.word, .byte]⟩),
  (0x05, .choose),
  (0x06, .repeatUntil),
  (0x07, .whileDo),
  (0x08, .ifElse),
  (0x09, .assign),
  (0x0A, .loadSprite),
  (0x11, .printText),
  (0x12, .loadScript),
  (0x13, .loadPalette),
  (0x14, .display ⟨"o1_keyFunc", .each [.word]⟩),
  (0x15, .display ⟨"o1_capturePush", .each [.expr, .expr, .expr, .expr]⟩),
  (0x16, .display ⟨"o1_capturePop", .each []⟩),
  (0x17, .display ⟨"o1_animPalInit", .each [.word, .expr, .expr]⟩),
  (0x1E, .draw),
  (0x1F, .setCommandCount),
  (0x20, .display ⟨"o1_return", .each []⟩),
  (0x21, .display ⟨"o1_renewTimeInVars", .each []⟩),
  (0x22, .display ⟨"o1_speakerOn", .each [.expr]⟩),
  (0x23, .display ⟨"o1_speakerOff", .each []⟩),
  (0x24, .display ⟨"o1_putPixel", .each [.word, .expr, .expr, .expr]⟩),
  (0x25, .goblin),
  (0x26, .display ⟨"o1_createSprite", .each [.word, .word, .word, .word]⟩),
  (0x27, .display ⟨"o1_freeSprite", .each [.word]⟩),
  (0x30, .display ⟨"o1_returnTo", .each []⟩),
  (0x31, .display ⟨"o1_loadSpriteContent", .each [.word, .word, .word]⟩),
  (0x32, .display ⟨"o1_copySprite", .each [.word, .word, .expr, .expr, .expr, .expr, .expr, .expr,
    .word]⟩),
  (0x33, .display ⟨"o1_fillRect", .each [.word, .expr, .expr, .expr, .expr, .expr]⟩),
  (0x34, .display ⟨"o1_drawLine", .each [.word, .expr, .expr, .expr, .expr, .expr]⟩),
  (0x35, .display ⟨"o1_strToLong", .each [.var, .var]⟩),
  (0x36, .unsupported "o1_invalidate"),
  (0x37, .display ⟨"o1_setBackDelta", .each [.expr, .expr]⟩),
  (0x38, .display ⟨"o1_playSound", .each [.expr, .expr, .expr]⟩),
  (0x39, .display ⟨"o1_stopSound", .each [.expr]⟩),
  (0x3A, .loadSound),
  (0x3B, .display ⟨"o1_freeSoundSlot", .each [.expr]⟩),
  (0x3C, .display ⟨"o1_waitEndPlay", .each []⟩),
  (0x3D, .display ⟨"o1_playComposition", .each [.var, .expr]⟩),
  (0x3E, .display ⟨"o1_getFreeMem", .each [.var, .var]⟩),
  (0x3F, .display ⟨"o1_checkData", .each [.expr, .var]⟩),
  (0x41, .unsupported "o1_cleanupStr"),
  (0x42, .display ⟨"o1_insertStr", .each [.var, .expr]⟩),
  (0x43, .unsupported "o1_cutStr"),
  (0x44, .unsupported "o1_strstr"),
  (0x45, .display ⟨"o1_istrlen", .each [.var, .var]⟩),
  (0x46, .display ⟨"o1_setMousePos", .each [.expr, .expr]⟩),
  (0x47, .display ⟨"o1_setFrameRate", .each [.expr]⟩),
  (0x48, .display ⟨"o1_animatePalette", .each []⟩),
  (0x49, .display ⟨"o1_animateCursor", .each []⟩),
  (0x4A, .display ⟨"o1_blitCursor", .each []⟩),
  (0x4B, .display ⟨"o1_loadFont", .each [.expr, .word]⟩),
  (0x4C, .display ⟨"o1_freeFont", .each [.word]⟩),
  (0x4D, .display ⟨"o1_readData", .each [.expr, .var, .expr, .expr]⟩),
  (0x4E, .display ⟨"o1_writeData", .each [.expr, .var, .expr, .expr]⟩),
  (0x4F, .display ⟨"o1_manageDataFile", .each [.expr]⟩)]

/-- What version 48 changes in version 49. -/
def instructions48 : List (Nat × Instruction) := [
  (0x25, .geisha),
  (0x3A, .display ⟨"oGeisha_loadSound", .each [.expr, .expr]⟩),
  (0x4D, .display ⟨"oGeisha_readData", .each [.expr, .var]⟩),
  (0x4E, .display ⟨"oGeisha_writeData", .each [.expr, .var]⟩)]

/-- What version 50 changes in version 49. -/
def instructions50 : List (Nat × Instruction) := [
  (0x09, .assignMany),
  (0x11, .printTextParts),
  (0x17, .display ⟨"o2_animPalInit", .each [.word, .expr, .expr]⟩),
  (0x18, .display ⟨"o2_addHotspot", .each [.expr, .expr, .expr, .expr, .expr, .expr, .word]⟩),
  (0x19, .display ⟨"o2_removeHotspot", .each [.expr]⟩),
  (0x1A, .textPart),
  (0x25, .goblinCommand),
  (0x39, .display ⟨"o2_stopSound", .each [.expr]⟩),
  (0x3A, .loadSoundFile),
  (0x3E, .display ⟨"o2_getFreeMem", .each [.var, .var]⟩),
  (0x3F, .display ⟨"o2_checkData", .each [.expr, .var]⟩),
  (0x4D, .display ⟨"o2_readData", .each [.expr, .var, .expr, .expr]⟩),
  (0x4E, .display ⟨"o2_writeData", .each [.expr, .var, .expr, .expr]⟩)]

/-- What version 51 changes in version 50. -/
def instructions51 : List (Nat × Instruction) := [
  (0x22, .display ⟨"o3_speakerOn", .each [.expr]⟩),
  (0x23, .display ⟨"o3_speakerOff", .each []⟩),
  (0x25, .unsupported "oInca2_spaceShooter"),
  (0x32, .display ⟨"o3_copySprite", .each [.word, .word, .expr, .expr, .expr, .expr, .expr, .expr,
    .word]⟩),
  (0x45, .textLength)]

/-- What version 52 changes in version 51. -/
def instructions52 : List (Nat × Instruction) := [
  (0x03, .unsupported "o6_loadCursor"),
  (0x09, .unsupported "o6_assign"),
  (0x0B, .unsupported "oPlaytoons_printText"),
  (0x11, .unsupported "o7_printText"),
  (0x19, .unsupported "o6_removeHotspot"),
  (0x1B, .unsupported "oPlaytoons_F_1B"),
  (0x24, .unsupported "oPlaytoons_putPixel"),
  (0x27, .unsupported "oPlaytoons_freeSprite"),
  (0x32, .unsupported "o1_copySprite"),
  (0x33, .unsupported "o6_fillRect"),
  (0x3F, .unsupported "oPlaytoons_checkData"),
  (0x34, .unsupported "o7_drawLine"),
  (0x36, .unsupported "o7_invalidate"),
  (0x3E, .unsupported "o7_getFreeMem"),
  (0x4E, .unsupported "o7_writeData"),
  (0x4D, .unsupported "oPlaytoons_readData")]

/-- The instructions of a version; of two entries for a code the first one counts. -/
def instructionSet? (version : Nat) : Option (List (Nat × Instruction)) :=
  match version with
  | 48 => some (instructions48 ++ instructions49)
  | 49 => some instructions49
  | 50 => some (instructions50 ++ instructions49)
  | 51 => some (instructions51 ++ instructions50 ++ instructions49)
  | 52 => some (instructions52 ++ instructions51 ++ instructions50 ++ instructions49)
  | _ => none

end AdventureKit.Script
