import Paging.Word.Field

/-!
# Where the fields of the seven words lie

Page-table entries, the two readings of a directory slot, the three control registers and the feature
word, each from its lowest bit on, at the places that the processor gives them. The modules of these words
give the fields their names for display. What is left between the fields of a word is its padding.
-/

namespace Paging

/-! ## Entries and slots -/

namespace EntryBits

def presentField : Field := ⟨0, 1, by decide⟩
def writableField : Field := ⟨1, 1, by decide⟩
def userField : Field := ⟨2, 1, by decide⟩
def writeThroughField : Field := ⟨3, 1, by decide⟩
def cacheDisabledField : Field := ⟨4, 1, by decide⟩
def accessedField : Field := ⟨5, 1, by decide⟩
def dirtyField : Field := ⟨6, 1, by decide⟩
def bit7Field : Field := ⟨7, 1, by decide⟩
def globalField : Field := ⟨8, 1, by decide⟩
def availableField : Field := ⟨9, 3, by decide⟩
def frameField : Field := ⟨12, 20, by decide⟩

end EntryBits

namespace TableLink

def presentField : Field := ⟨0, 1, by decide⟩
def writableField : Field := ⟨1, 1, by decide⟩
def userField : Field := ⟨2, 1, by decide⟩
def writeThroughField : Field := ⟨3, 1, by decide⟩
def cacheDisableField : Field := ⟨4, 1, by decide⟩
def accessedField : Field := ⟨5, 1, by decide⟩
def availableField : Field := ⟨9, 3, by decide⟩
def frameField : Field := ⟨12, 20, by decide⟩
def padding : List Field := [⟨6, 1, by decide⟩, ⟨7, 1, by decide⟩, ⟨8, 1, by decide⟩]

end TableLink

namespace LargeLeaf

def presentField : Field := ⟨0, 1, by decide⟩
def writableField : Field := ⟨1, 1, by decide⟩
def userField : Field := ⟨2, 1, by decide⟩
def writeThroughField : Field := ⟨3, 1, by decide⟩
def cacheDisableField : Field := ⟨4, 1, by decide⟩
def accessedField : Field := ⟨5, 1, by decide⟩
def dirtyField : Field := ⟨6, 1, by decide⟩
def pageSizeField : Field := ⟨7, 1, by decide⟩
def globalField : Field := ⟨8, 1, by decide⟩
def availableField : Field := ⟨9, 3, by decide⟩
def attributeField : Field := ⟨12, 1, by decide⟩
def pageField : Field := ⟨22, 10, by decide⟩
def padding : List Field := [⟨13, 9, by decide⟩]

end LargeLeaf

/-! ## Registers -/

namespace Cr0

def protectedMode : Field := ⟨0, 1, by decide⟩
def writeProtect : Field := ⟨16, 1, by decide⟩
def paging : Field := ⟨31, 1, by decide⟩
def padding : List Field := [⟨1, 15, by decide⟩, ⟨17, 14, by decide⟩]

end Cr0

namespace Cr3

def reservedLow : Field := ⟨0, 3, by decide⟩
def writeThrough : Field := ⟨3, 1, by decide⟩
def cacheDisable : Field := ⟨4, 1, by decide⟩
def reservedHigh : Field := ⟨5, 7, by decide⟩
def directoryFrame : Field := ⟨12, 20, by decide⟩

end Cr3

namespace Cr4

def pageSizeExtension : Field := ⟨4, 1, by decide⟩
def addressExtension : Field := ⟨5, 1, by decide⟩
def globalPages : Field := ⟨7, 1, by decide⟩
def padding : List Field := [⟨0, 4, by decide⟩, ⟨6, 1, by decide⟩, ⟨8, 24, by decide⟩]

end Cr4

namespace Features

def fpu : Field := ⟨0, 1, by decide⟩
def virtualMode : Field := ⟨1, 1, by decide⟩
def debugging : Field := ⟨2, 1, by decide⟩
def pageSizeExtension : Field := ⟨3, 1, by decide⟩
def timeStampCounter : Field := ⟨4, 1, by decide⟩
def modelRegisters : Field := ⟨5, 1, by decide⟩
def addressExtension : Field := ⟨6, 1, by decide⟩
def machineCheck : Field := ⟨7, 1, by decide⟩
def compareExchange8 : Field := ⟨8, 1, by decide⟩
def interruptController : Field := ⟨9, 1, by decide⟩
def globalPages : Field := ⟨13, 1, by decide⟩
def attributeTable : Field := ⟨16, 1, by decide⟩
def pageSizeExtension36 : Field := ⟨17, 1, by decide⟩
def padding : List Field := [⟨10, 3, by decide⟩, ⟨14, 2, by decide⟩, ⟨18, 14, by decide⟩]

end Features

end Paging
