import IrStream.Basic
import IrStream.Reader
import IrStream.Fields
import IrStream.DecodeMessage
import IrStream.NextMessage
import IrStream.Preamble
import IrStream.Wire
import IrStream.Frames
import IrStream.Render
import IrStream.Errors
import IrStream.Assembler
import IrStream.Answers
import IrStream.PreambleGrammar
import IrStream.Stream
import IrStream.Run
import IrStream.Variants
import IrStream.Streaming
