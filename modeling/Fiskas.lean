import Fiskas.ForStd.Run
import Fiskas.ForStd.List
import Fiskas.Native.Base
import Fiskas.Native.X86Common
import Fiskas.Native.Lexer
import Fiskas.Native.Parser
import Fiskas.Native.Mov
import Fiskas.X86.Mov
import Fiskas.Spec.RegisterNames
import Fiskas.Spec.MovEncode
import Fiskas.Spec.MovDecode
import Fiskas.Spec.MovInjective
import Fiskas.ForStd.Munch
import Fiskas.Spec.LexerScan
import Fiskas.Spec.LexerTokens
import Fiskas.Spec.MovParser
import Fiskas.Spec.MovProgram
import Fiskas.ForStd.Slice
import Fiskas.Elf64.StringTable
import Fiskas.Elf64.Reader
import Fiskas.ForStd.UnorderedMap
import Fiskas.Native.ElfBuilder
import Fiskas.Spec.SectionTable
import Fiskas.Spec.SerializerBytes
import Fiskas.Spec.ElfSections
import Fiskas.Spec.ElfLayout
import Fiskas.Spec.ElfRoundTrip
import Fiskas.Elf64.Items
import Fiskas.ForStd.Agree
import Fiskas.Native.AsmCcLexer
import Fiskas.Native.File
import Fiskas.Spec.AsmCcLexer
import Fiskas.Spec.ElfEntries
import Fiskas.Spec.ElfReproducible
import Fiskas.Spec.FileWrite
import Fiskas.Spec.LexerLanguage
import Fiskas.Spec.SerializerCodec
import Fiskas.Spec.SymbolNames
import Fiskas.ForStd.Patch
import Fiskas.ForStd.Template
import Fiskas.Native.MainV2
import Fiskas.Native.MainV3
import Fiskas.Spec.HeadersFirst
import Fiskas.Spec.HeadersFirstFile
import Fiskas.Spec.SerializerMerge
import Fiskas.ForStd.Matching
import Fiskas.Spec.RexBuilder
import Fiskas.Spec.SerializerCheck
import Fiskas.Native.AsmCcParser
import Fiskas.Native.MainV1
import Fiskas.Spec.AsmCcComments
import Fiskas.Spec.AsmCcParser
import Fiskas.Spec.FirstWriter
import Fiskas.Spec.FirstWriterFile
import Fiskas.Spec.SerializerDirect
import Fiskas.Spec.SerializerSession
import Fiskas.Elf64.TextObject
import Fiskas.Native.MainV2Program
import Fiskas.Native.MainV3Program
import Fiskas.Spec.AsmCcLookahead
import Fiskas.Spec.ElfInjective
import Fiskas.Spec.FunctionObject
import Fiskas.Spec.MainV2Program
import Fiskas.Spec.MainV3Program
import Fiskas.Spec.ModRmBuilder
import Fiskas.Spec.WritersAgree
