import SdkCp.TransitionSystem
import SdkCp.Bytes
import SdkCp.RingBuffer
import SdkCp.RingBufferProgress
import SdkCp.ThreadedHandlerDelivery
import SdkCp.Threads
import SdkCp.Blocker
import SdkCp.ChainExecutor
import SdkCp.ChainExecutorRemove
import SdkCp.LinearHashMapFailure
import SdkCp.Dataport
import SdkCp.BinarySerializerRoundTrip
import SdkCp.BinarySerializerImage
import SdkCp.BinarySerializerSize
import SdkCp.StreamReader
import SdkCp.ServerWs
import SdkCp.WebSocketReceive
import SdkCp.WebSocketFrame
import SdkCp.WebSocketValidation
import SdkCp.WebSocketSafety
import SdkCp.WebSocketClose
import SdkCp.WebSocketUnmask
import SdkCp.WebSocketRequest
import SdkCp.WebSocketEncrypt
import SdkCp.HttpServerCompressed
import SdkCp.HttpServerReplies
import SdkCp.HttpServerIsolation
import SdkCp.HeapAllocatorSafety
import SdkCp.HeapAllocatorTransparency
import SdkCp.HeapGrowth
import SdkCp.StackAllocator
import SdkCp.JsonParser
import SdkCp.JsonWriterRoundTrip
import SdkCp.JsonWriterBytes
import SdkCp.JsonWriterNumbers
import SdkCp.JsonSerializerBounds
import SdkCp.JsonSerializerExact
import SdkCp.StaticFrame
import SdkCp.ThreadPoolHandOver
import SdkCp.DynamicFrameSafety
import SdkCp.DynamicFrameGrowth
import SdkCp.CallbackKeeper
import SdkCp.NodeListRings
import SdkCp.NodeListDisposal
import SdkCp.BSplineSearch
import SdkCp.BSplineCoverage
import SdkCp.BSplineSamples
import SdkCp.FileContent
import SdkCp.FileListing
import SdkCp.CurrentDir
import SdkCp.HexDump
import SdkCp.ExtendedProtocolPacket
import SdkCp.HeapAllocatorPages
import SdkCp.LzoServers
import SdkCp.WebSocketConnection
import SdkCp.Corruption
import SdkCp.LinuxServer
import SdkCp.Log
import SdkCp.ChainExecutorDrain
import SdkCp.ThreadPoolDrain
import SdkCp.RingBufferDrain
import SdkCp.ThreadedHandlerDrain
import SdkCp.WaitForSingleObject
import SdkCp.ServerWsMessages
